import FiveFs.Table

/-! Claiming, rewriting and releasing records: what each does to the store of an AG. -/

namespace FiveFs

open Buffer Prog Refine

/-- Every failure but the underflow of an unsigned counter. -/
def NoUnderflow (e : Err) (_ : Work) : Prop := e ≠ .panic "attempt to subtract with overflow"

theorem testBit_set {used idx : Nat} (i : Nat) :
    (used ||| 1 <<< idx).testBit i = (used.testBit i || decide (i = idx)) := by
  rw [Nat.testBit_or, Nat.one_shiftLeft, Nat.testBit_two_pow]
  congr 1
  exact decide_eq_decide.mpr eq_comm

theorem testBit_clear {used idx : Nat} (bound : used < 2 ^ 32) (i : Nat) :
    (used &&& (0xFFFFFFFF ^^^ 1 <<< idx)).testBit i = (used.testBit i && decide (i ≠ idx)) := by
  rw [Nat.testBit_and, Nat.testBit_xor, show 0xFFFFFFFF = 2 ^ 32 - 1 from rfl,
    Nat.testBit_two_pow_sub_one, Nat.one_shiftLeft, Nat.testBit_two_pow]
  by_cases high : i < 32
  · by_cases here : i = idx
    · subst here
      simp [high]
    · simp [high, here, Ne.symm here]
  · have clear : used.testBit i = false := by
      apply Nat.testBit_lt_two_pow
      exact Nat.lt_of_lt_of_le bound (Nat.pow_le_pow_right (by decide) (Nat.le_of_not_lt high))
    simp [clear]

theorem getU32_lt (b : Bytes) (off : Nat) : getU32 b off < 2 ^ 32 := getBE_lt b off 4

theorem countOnes_eq (n : Nat) : countOnes n =
    ((Finset.range 32).filter fun i => n.testBit i).card := by
  rw [countOnes, List.countP_eq_length_filter]
  show _ = (List.filter _ (List.range 32)).length
  congr 1
  apply List.filter_congr
  intro i _
  exact Bool.decide_eq_true.symm

theorem countOnes_set {n idx : Nat} (bit : idx < 32) (clear : n.testBit idx = false) :
    countOnes (n ||| 1 <<< idx) = countOnes n + 1 := by
  have set : (Finset.range 32).filter (fun i => (n ||| 1 <<< idx).testBit i) =
      insert idx ((Finset.range 32).filter fun i => n.testBit i) := by
    ext i
    simp only [Finset.mem_filter, Finset.mem_range, Finset.mem_insert, testBit_set, Bool.or_eq_true,
      decide_eq_true_eq]
    constructor
    · rintro ⟨low, old | here⟩
      · exact .inr ⟨low, old⟩
      · exact .inl here
    · rintro (rfl | ⟨low, old⟩)
      · exact ⟨bit, .inr rfl⟩
      · exact ⟨low, .inl old⟩
  rw [countOnes_eq, countOnes_eq, set, Finset.card_insert_of_notMem]
  simp [clear]

theorem exists_clear {n nrec : Nat} (low : nrec ≤ 32) (some : countOnes n < nrec) :
    ∃ i < nrec, n.testBit i = false := by
  by_contra none
  have all : ∀ i < nrec, n.testBit i = true := by
    intro i hi
    by_contra clear
    exact none ⟨i, hi, Bool.eq_false_iff.mpr clear⟩
  have subset : Finset.range nrec ⊆ (Finset.range 32).filter fun i => n.testBit i := by
    intro i member
    have hi := Finset.mem_range.mp member
    exact Finset.mem_filter.mpr ⟨Finset.mem_range.mpr (by omega), all i hi⟩
  have card := Finset.card_le_card subset
  rw [Finset.card_range, ← countOnes_eq] at card
  omega

theorem countOnes_le (n : Nat) : countOnes n ≤ 32 := by
  have le := List.countP_le_length (p := fun i => n.testBit i) (l := List.range 32)
  rwa [List.length_range] at le

theorem countOnes_and_le (m k : Nat) : countOnes (m &&& k) ≤ countOnes m := by
  rw [countOnes, countOnes]
  apply List.countP_mono_left
  intro i _ bit
  rw [Nat.testBit_and, Bool.and_eq_true] at bit
  exact bit.1

theorem countOnes_one : countOnes 1 = 1 := by decide

section Blocks

variable [Crc32c] {bs : Nat} {buf : Bytes} {idx : Nat}

theorem clip_tblSeal : clip bs (tblSeal bs buf) = tblSeal bs buf := by
  rw [tblSeal, clip_clip]

theorem magic_tblSeal (large : 20 ≤ bs) : getU32 (tblSeal bs buf) 0 = getU32 buf 0 :=
  getBE_tblSeal (by omega) (by omega)

theorem mask_tblSeal (large : 20 ≤ bs) : getU32 (tblSeal bs buf) 16 = getU32 buf 16 :=
  getBE_tblSeal (by omega) (by omega)

theorem recAt_replace (data : Bytes) {mask : Nat} (idx' : Nat) (inside : RecIn bs idx') :
    recAt (tblSeal bs (copyAt (putU32 buf 16 mask) (recOff idx) REC_SIZE data)) idx' =
      if idx = idx' then clip REC_SIZE data else recAt buf idx' := by
  rw [recAt_tblSeal inside, recAt_copyAt, recAt_putU32 (by decide)]

theorem mask_replace (data : Bytes) {mask : Nat} (large : 20 ≤ bs) (bound : mask < 2 ^ 32) :
    getU32 (tblSeal bs (copyAt (putU32 buf 16 mask) (recOff idx) REC_SIZE data)) 16 = mask := by
  rw [mask_tblSeal large, getU32_copyAt_rec (by decide), getU32, putU32, getBE_putBE]
  exact Nat.mod_eq_of_lt bound

theorem magic_replace (data : Bytes) {mask : Nat} (large : 20 ≤ bs) :
    getU32 (tblSeal bs (copyAt (putU32 buf 16 mask) (recOff idx) REC_SIZE data)) 0 = getU32 buf
    0 := by
  rw [magic_tblSeal large, getU32_copyAt_rec (by decide)]
  exact getBE_putBE_disjoint _ (by decide)

end Blocks

namespace Ag

variable [Crc32c] {A : Ag} {bs : Nat} {v v' : Nat → Bytes} {r r' : Ref}

omit [Crc32c] in
theorem recMark_clip (data : Bytes) (i : Fin ALLOC_FANOUT) :
    recMark (clip REC_SIZE data) i = recMark data i :=
  recMark_congr (fun _ hk => clip_of_lt _ hk) i

/-- The block a record is claimed in: a table block, or one that is initialised. -/
def openBlock (buf : Bytes) : Bytes := if getU32 buf 0 = ALLOC_MAGIC then buf else putU32 zeros 0
    ALLOC_MAGIC

omit [Crc32c] in
theorem openBlock_magic (buf : Bytes) : getU32 (openBlock buf) 0 = ALLOC_MAGIC := by
  rw [openBlock]
  split
  · assumption
  · rw [getU32, putU32, getBE_putBE]
    rfl

/-- The used mask with which a block takes part in the scan of the arena. -/
def arenaMask (A : Ag) (v : Nat → Bytes) (l : Nat) : Nat := getU32 (openBlock (v (A.blk l))) 16

/-- The children of record `r` became `kids`; all else in the store is as before. -/
structure Rewritten (A : Ag) (bs : Nat) (v v' : Nat → Bytes) (r : Ref)
    (kids : Fin ALLOC_FANOUT → Mark CellState Ref) : Prop where
  here : A.kidMark v' r = kids
  kid : ∀ r', r' ≠ r → RecIn bs r'.2 → A.kidMark v' r' = A.kidMark v r'
  sound : ∀ l, TblOk bs (v (A.blk l)) → TblOk bs (v' (A.blk l))
  magic : ∀ l, A.Magic v' l ↔ A.Magic v l
  frame : ∀ b, b ≠ A.blk r.1 → v' b = v b

/-- Record `r` was claimed with all children FREE; with `grown = some c`, cell `c` became the arena
it was taken from. -/
structure Claimed (A : Ag) (bs : Nat) (v v' : Nat → Bytes) (r : Ref) (grown : Option Nat) :
    Prop where
  index : r.2 < recsPerBlock bs
  bit : r.2 < 32
  unused : grown = none → ¬ A.Used v r
  used : A.Used v' r
  sound : TblOk bs (v' (A.blk r.1))
  zero : ∀ i, A.kidMark v' r i = .leaf .free
  kept : ∀ r', r' ≠ r → RecIn bs r'.2 → A.Used v r' → TblOk bs (v (A.blk r'.1)) → ¬ A.Root r'.1 →
    (∀ c, grown = some c → r'.1 / CELL_BLOCKS ≠ c) →
    A.kidMark v' r' = A.kidMark v r' ∧ A.Used v' r' ∧ TblOk bs (v' (A.blk r'.1))
  exact : ∀ r', ¬ A.Root r'.1 → A.Used v' r' → r' = r ∨ A.Used v r'
  root : ∀ c < A.cells, A.rootMark v' c = if grown = some c then .leaf .rsvd else A.rootMark v c
  filled : grown = none → countOnes (A.arenaMask v r.1) < recsPerBlock bs ∧
    (A.arenaMask v r.1).testBit r.2 = false ∧ A.arenaMask v' r.1 = A.arenaMask v r.1 ||| 1 <<< r.2
  first : grown ≠ none → A.arenaMask v' r.1 = 1
  frame : ∀ b, b ≠ A.blk r.1 → (∀ l, A.Root l → b ≠ A.blk l) → v' b = v b

theorem Rewritten.root {kids : Fin ALLOC_FANOUT → Mark CellState Ref}
    (h : A.Rewritten bs v v' r kids)
    (apart : ¬ A.Root r.1) {c : Nat} (hc : c < A.cells) : A.rootMark v' c = A.rootMark v c := by
  apply rootMark_frame _ hc
  intro l root
  apply h.frame
  intro equal
  exact apart (A.blk_inj.mp equal ▸ root)

theorem rewritten_recWrite (data : Bytes) (large : 2048 ≤ bs) (inside : RecIn bs r.2)
    (magic : A.Magic v r.1) :
    A.Rewritten bs v (Function.update v (A.blk r.1)
      (clip bs (tblSeal bs (copyAt (v (A.blk r.1)) (recOff r.2) REC_SIZE data)))) r (recMark data)
      where
  here := by
    funext i
    rw [kidMark, Function.update_self, clip_tblSeal, recAt_tblSeal inside, recAt_copyAt, if_pos rfl,
      recMark_clip]
  kid r' other inside' := by
    funext i
    rw [kidMark, kidMark, update_blk]
    split
    · rename_i block
      have index : r.2 ≠ r'.2 := fun equal => other (Prod.ext block equal.symm)
      rw [clip_tblSeal, recAt_tblSeal inside', recAt_copyAt, if_neg index, block]
    · rfl
  sound l ok := by
    rw [update_blk]
    split
    · rename_i block
      subst block
      rw [clip_tblSeal]
      apply tblSeal_ok (by omega)
      rw [getU32_copyAt_rec (by decide)]
      exact magic
    · exact ok
  magic l := by
    rw [Magic, Magic, update_blk]
    split
    · rename_i block
      rw [clip_tblSeal, magic_tblSeal (by omega), getU32_copyAt_rec (by decide), block]
    · rfl
  frame b other := Function.update_of_ne other _ _

theorem used_recWrite (data : Bytes) (large : 2048 ≤ bs) (r r' : Ref) :
    A.Used (Function.update v (A.blk r.1)
      (clip bs (tblSeal bs (copyAt (v (A.blk r.1)) (recOff r.2) REC_SIZE data)))) r' ↔
      A.Used v r' := by
  rw [Used, Used, Magic, Magic, update_blk]
  split
  · rename_i block
    rw [clip_tblSeal, magic_tblSeal (by omega), mask_tblSeal (by omega),
        getU32_copyAt_rec (by decide),
      getU32_copyAt_rec (by decide), block]
  · rfl

/-- What a table block becomes when record `r` of it is freed. -/
def freedBlock (bs : Nat) (buf : Bytes) (idx : Nat) : Bytes :=
  tblSeal bs (copyAt (putU32 buf 16 (getU32 buf 16 &&& (0xFFFFFFFF ^^^ 1 <<< idx))) (recOff idx)
    REC_SIZE zeros)

theorem rewritten_freeRec (large : 2048 ≤ bs) (inside : RecIn bs r.2) (magic : A.Magic v r.1) :
    A.Rewritten bs v (Function.update v (A.blk r.1) (clip bs (freedBlock bs (v (A.blk r.1)) r.2))) r
      fun _ => .leaf .free where
  here := by
    funext i
    rw [kidMark, Function.update_self, freedBlock, clip_tblSeal,
      recAt_replace _ _ inside, if_pos rfl, recMark_clip, recMark_zeros]
  kid r' other inside' := by
    funext i
    rw [kidMark, kidMark, update_blk]
    split
    · rename_i block
      have index : r.2 ≠ r'.2 := fun equal => other (Prod.ext block equal.symm)
      rw [freedBlock, clip_tblSeal, recAt_replace _ _ inside', if_neg index, block]
    · rfl
  sound l ok := by
    rw [update_blk]
    split
    · rename_i block
      subst block
      rw [freedBlock, clip_tblSeal]
      apply tblSeal_ok (by omega)
      rw [getU32_copyAt_rec (by decide), getU32, putU32, getBE_putBE_disjoint _ (by decide)]
      exact magic
    · exact ok
  magic l := by
    rw [Magic, Magic, update_blk]
    split
    · rename_i block
      rw [freedBlock, clip_tblSeal, magic_replace _ (by omega), block]
    · rfl
  frame b other := Function.update_of_ne other _ _

theorem used_freeRec (large : 2048 ≤ bs) (r r' : Ref) :
    A.Used (Function.update v (A.blk r.1) (clip bs (freedBlock bs (v (A.blk r.1)) r.2))) r' ↔
      A.Used v r' ∧ r' ≠ r := by
  have mask := getU32_lt (v (A.blk r.1)) 16
  rw [Used, Used, Magic, Magic, update_blk]
  split
  · rename_i block
    have bound : getU32 (v (A.blk r.1)) 16 &&& (0xFFFFFFFF ^^^ 1 <<< r.2) < 2 ^ 32 :=
      Nat.lt_of_le_of_lt Nat.and_le_left mask
    rw [freedBlock, clip_tblSeal, magic_replace _ (by omega), mask_replace _ (by omega) bound,
      testBit_clear mask, Bool.and_eq_true, decide_eq_true_eq, block]
    have ref : r' ≠ r ↔ r'.2 ≠ r.2 := by
      constructor
      · exact fun other equal => other (Prod.ext block equal)
      · exact fun other equal => other (equal ▸ rfl)
    rw [ref, and_assoc]
  · rename_i block
    have ref : r' ≠ r := fun equal => block (equal ▸ rfl)
    simp [ref]

def claimedBlock (bs : Nat) (buf : Bytes) (idx : Nat) : Bytes :=
  tblSeal bs (copyAt (putU32 buf 16 (getU32 buf 16 ||| 1 <<< idx)) (recOff idx) REC_SIZE zeros)

/-- A record is claimed in an arena block. -/
theorem claimed_scan (large : 2048 ≤ bs) (index : r.2 < recsPerBlock bs) (bit : r.2 < 32)
    (apart : ¬ A.Root r.1) (room : countOnes (A.arenaMask v r.1) < recsPerBlock bs)
    (clear : (getU32 (openBlock (v (A.blk r.1))) 16).testBit r.2 = false) :
    A.Claimed bs v (Function.update v (A.blk r.1)
      (clip bs (claimedBlock bs (openBlock (v (A.blk r.1))) r.2))) r none := by
  have inside := recIn_of_lt index
  have magic := openBlock_magic (v (A.blk r.1))
  have bound : getU32 (openBlock (v (A.blk r.1))) 16 ||| 1 <<< r.2 < 2 ^ 32 := by
    apply Nat.or_lt_two_pow (getU32_lt _ _)
    rw [Nat.one_shiftLeft]
    exact Nat.pow_lt_pow_right (by decide) bit
  have block_ok : TblOk bs (clip bs (claimedBlock bs (openBlock (v (A.blk r.1))) r.2)) := by
    rw [claimedBlock, clip_tblSeal]
    apply tblSeal_ok (by omega)
    rw [getU32_copyAt_rec (by decide), getU32, putU32, getBE_putBE_disjoint _ (by decide)]
    exact magic
  have mask : getU32 (clip bs (claimedBlock bs (openBlock (v (A.blk r.1))) r.2)) 16 =
      getU32 (openBlock (v (A.blk r.1))) 16 ||| 1 <<< r.2 := by
    rw [claimedBlock, clip_tblSeal, mask_replace _ (by omega) bound]
  refine ⟨index, bit, fun _ used => ?_, ?_, ?_, fun i => ?_, ?_, ?_, ?_, fun _ => ⟨room, clear, ?_⟩,
      ?_, ?_⟩
  · have same : openBlock (v (A.blk r.1)) = v (A.blk r.1) := if_pos used.1
    rw [same, used.2] at clear
    cases clear
  · rw [Used, Magic, Function.update_self, mask, testBit_set]
    exact ⟨block_ok.1, by simp⟩
  · rw [Function.update_self]
    exact block_ok
  · rw [kidMark, Function.update_self, claimedBlock, clip_tblSeal, recAt_replace _ _ inside,
        if_pos rfl,
      recMark_clip, recMark_zeros]
  · intro r' other inside' used ok _ _
    by_cases block : r'.1 = r.1
    · have index' : r.2 ≠ r'.2 := fun equal => other (Prod.ext block equal.symm)
      have same : openBlock (v (A.blk r.1)) = v (A.blk r.1) := if_pos (block ▸ used.1)
      refine ⟨?_, ?_, ?_⟩
      · funext i
        rw [kidMark, kidMark, update_blk, if_pos block, claimedBlock, clip_tblSeal,
          recAt_replace _ _ inside', if_neg index', same, block]
      · have bit' : (getU32 (openBlock (v (A.blk r.1))) 16).testBit r'.2 = true := by
          rw [same, ← block]
          exact used.2
        rw [Used, Magic, update_blk, if_pos block, mask, testBit_set, bit', Bool.true_or]
        exact ⟨block_ok.1, rfl⟩
      · rw [update_blk, if_pos block]
        exact block_ok
    · rw [Used, Magic, update_blk, if_neg block]
      refine ⟨?_, used, ok⟩
      funext i
      rw [kidMark, kidMark, update_blk, if_neg block]
  · intro r' _ used
    rw [Used, Magic, update_blk] at used
    split at used
    · rename_i block
      rw [mask, testBit_set, Bool.or_eq_true, decide_eq_true_eq] at used
      rcases used.2 with old | new
      · right
        rw [openBlock] at old
        split at old
        · rename_i is_table
          exact ⟨block ▸ is_table, block ▸ old⟩
        · have zero : getU32 (putU32 zeros 0 ALLOC_MAGIC) 16 = 0 := by
            rw [getU32, putU32, getBE_putBE_disjoint _ (by decide), getBE_zeros]
          rw [zero, Nat.zero_testBit] at old
          cases old
      · exact .inl (Prod.ext block new)
    · exact .inr used
  · intro c hc
    rw [if_neg (fun h => by cases h)]
    apply rootMark_frame _ hc
    intro l root
    apply Function.update_of_ne
    intro equal
    exact apart (A.blk_inj.mp equal ▸ root)
  · have opened : openBlock (clip bs (claimedBlock bs (openBlock (v (A.blk r.1))) r.2)) =
        clip bs (claimedBlock bs (openBlock (v (A.blk r.1))) r.2) := if_pos block_ok.1
    rw [arenaMask, Function.update_self, opened, mask]
    rfl
  · exact fun grown => (grown rfl).elim
  · intro b other _
    exact Function.update_of_ne other _ _

/-- The first block of a new arena. -/
def arenaBlock (bs : Nat) : Bytes := tblSeal bs (putU32 (putU32 zeros 0 ALLOC_MAGIC) 16 1)

/-- A FREE cell becomes the arena, and its first record is claimed. -/
theorem claimed_grow {w₀ w₁ : Work} {c : Nat} (large : 2048 ≤ bs)
    (put : A.Tabled w₀ w₁ (cellSet (A.table w₀.view) c CELL_RSVD)) (hc : c < A.cells)
    (later : ¬ A.reserved c) :
    A.Claimed bs w₀.view (Function.update w₁.view (A.blk (c * CELL_BLOCKS))
    (clip bs (arenaBlock bs)))
      (c * CELL_BLOCKS, 0) (some c) := by
  have cell : c * CELL_BLOCKS / CELL_BLOCKS = c := Nat.mul_div_cancel _ (by decide)
  have apart : ¬ A.Root (c * CELL_BLOCKS) := fun root => later (cell ▸ A.root_reserved root)
  have recs : 0 < recsPerBlock bs := by
    rw [recsPerBlock, REC_SIZE]
    omega
  have block_ok : TblOk bs (clip bs (arenaBlock bs)) := by
    rw [arenaBlock, clip_tblSeal]
    apply tblSeal_ok (by omega)
    rw [getU32, putU32, putU32, getBE_putBE_disjoint _ (by decide), getBE_putBE]
    rfl
  have mask : getU32 (clip bs (arenaBlock bs)) 16 = 1 := by
    rw [arenaBlock, clip_tblSeal, mask_tblSeal (by omega), getU32, putU32, getBE_putBE]
    rfl
  have other : ∀ l, ¬ A.Root l → l ≠ c * CELL_BLOCKS →
      Function.update w₁.view (A.blk (c * CELL_BLOCKS)) (clip bs (arenaBlock bs)) (A.blk l) =
        w₀.view (A.blk l) := by
    intro l root block
    rw [update_blk, if_neg block, put.view root]
  refine ⟨recs, Nat.zero_lt_succ _, (fun h => by cases h), ?_, ?_, fun i => ?_, ?_, ?_, ?_,
      (fun h => by cases h), fun _ => ?_, ?_⟩
  · rw [Used, Magic, Function.update_self, mask]
    exact ⟨block_ok.1, Nat.testBit_one_zero⟩
  · rw [Function.update_self]
    exact block_ok
  · rw [kidMark, Function.update_self, arenaBlock, clip_tblSeal, recAt_tblSeal (recIn_of_lt recs),
      recAt_putU32 (by decide), recAt_putU32 (by decide)]
    exact (recMark_clip zeros i).trans (recMark_zeros i)
  · intro r' _ _ used ok root outside
    have block : r'.1 ≠ c * CELL_BLOCKS := by
      intro equal
      apply outside c rfl
      rw [equal, cell]
    have same := other r'.1 root block
    refine ⟨?_, ?_, ?_⟩
    · funext i
      rw [kidMark, kidMark, same]
    · rw [Used, Magic, same]
      exact used
    · rw [same]
      exact ok
  · intro r' root used
    by_cases block : r'.1 = c * CELL_BLOCKS
    · rw [Used, Magic, block, Function.update_self, mask] at used
      left
      refine Prod.ext block ?_
      by_contra bit
      rw [show (1 : Nat) = 2 ^ 0 from rfl, Nat.testBit_two_pow, decide_eq_true_eq] at used
      exact bit used.2.symm
    · rw [Used, Magic, other r'.1 root block] at used
      exact .inr used
  · intro c' hc'
    have frame : A.rootMark (Function.update w₁.view (A.blk (c * CELL_BLOCKS))
        (clip bs (arenaBlock bs))) c' =
        A.rootMark w₁.view c' := by
      apply rootMark_frame _ hc'
      intro l root
      apply Function.update_of_ne
      intro equal
      exact apart (A.blk_inj.mp equal ▸ root)
    rw [frame, rootMark_stateSet put hc hc' (by decide)]
    by_cases same : c' = c
    · rw [if_pos same, if_pos (same ▸ rfl), cellMark_rsvd]
    · rw [if_neg same, if_neg (fun equal => same (Option.some.inj equal).symm)]
  · have opened : openBlock (clip bs (arenaBlock bs)) = clip bs (arenaBlock bs) := if_pos block_ok.1
    rw [arenaMask, Function.update_self, opened, mask]
  · intro b other' root
    rw [Function.update_of_ne other', put.frame b root]

end Ag

namespace Work

variable {A : Ag} {w : Work} {hdr : AgHeader}

theorem subtract_run {a b : Nat} (h : b ≤ a) : subtract a b w = (.ok (a - b), w) := by
  rw [subtract, ite_run, if_pos h]
  rfl

theorem freeRec_wp (used nrec : Nat) :
    wp (freeRec used nrec) (fun idx w' => w' = w ∧ idx < nrec ∧ idx < 32 ∧ used.testBit idx = false)
      NoUnderflow w := by
  rw [freeRec]
  split
  · rename_i idx found
    have member := List.mem_range.mp (List.mem_of_find?_eq_some found)
    have clear := List.find?_some found
    rw [Bool.not_eq_true'] at clear
    exact ⟨rfl, by omega, by omega, clear⟩
  · split
    · simp [NoUnderflow]
    · simp [NoUnderflow]

theorem setTblHint_run (w : Work) (ag b : Nat) : setTblHint ag b w = (.ok (), w.rehint
    (Function.update w.fs.hints ag (some (b, ((w.fs.hints ag).getD (0, 0)).2)))) := rfl

theorem setCellHint_run (w : Work) (ag c : Nat) : setCellHint ag c w = (.ok (), w.rehint
    (Function.update w.fs.hints ag (some (((w.fs.hints ag).getD (0, 0)).1, c)))) := rfl

theorem findFree_run (on : A.On w) (of : A.Of hdr) {cs : List Nat}
    (inside : ∀ c ∈ cs, c < A.cells) :
    findFree hdr cs w =
      (.ok (cs.find? fun c => cellGet (A.table w.view) c == CELL_FREE), w) := by
  induction cs with
  | nil => rfl
  | cons c rest ih =>
      have state := rtState_run on of (inside c List.mem_cons_self)
      have tried : attempt (rtState hdr c) w = (.ok (.ok (cellGet (A.table w.view) c)), w) := by
        rw [attempt, state]
      rw [findFree, bind_ok _ _ tried]
      dsimp only
      rw [ite_run, List.find?_cons]
      by_cases here : cellGet (A.table w.view) c = CELL_FREE
      · simp [here]
      · rw [if_neg here, beq_eq_false_iff_ne.mpr here]
        exact ih fun c hc => inside c (List.mem_cons_of_mem _ hc)

variable [Crc32c]

theorem arenaRead_wp {b : Nat} {Q : Bytes → Work → Prop} (mapped : w.Mapped (A.blk b))
    (holds : Q (Ag.openBlock (w.view (A.blk b))) w) : wp (arenaRead A.num b) Q NoUnderflow w := by
  have read : txnRead (blkAddr A.num b) w = (.ok (w.view (A.blk b)), w) := txnRead_run mapped
  rw [Ag.openBlock] at holds
  rw [arenaRead, wp_bind, wp_run read, wp_ite]
  split
  · rename_i magic
    rw [if_pos magic] at holds
    exact tblRead_wp mapped (fun _ => holds) (by simp [NoUnderflow])
  · rename_i magic
    rw [if_neg magic] at holds
    exact holds

theorem arenaScan_wp (on : A.On w) (of : A.Of hdr) {order : List Nat}
    (inside : ∀ b ∈ order, b < A.length ∧ ¬ A.Root b) :
    wp (arenaScan hdr (recsPerBlock w.blocksize) order) (fun found w' =>
      match found with
      | none => w' = w
      | some r => r.1 ∈ order ∧ w.Kin w' ∧ w'.fs.sb = w.fs.sb ∧
          A.Claimed w.blocksize w.view w'.view r none) NoUnderflow w := by
  induction order with
  | nil => rfl
  | cons b rest ih =>
      have block := inside b List.mem_cons_self
      rw [arenaScan, of.num, wp_bind]
      apply arenaRead_wp (on.mapped b block.1)
      dsimp only
      rw [wp_ite]
      split
      · apply wp_mono (ih fun b hb => inside b (List.mem_cons_of_mem _ hb))
        · rintro (_ | r) w' post
          · exact post
          · exact ⟨List.mem_cons_of_mem _ post.1, post.2⟩
        · exact fun _ _ err => err
      · rename_i room
        rw [wp_bind]
        apply wp_mono (freeRec_wp _ _)
        · rintro idx w' ⟨rfl, index, bit, clear⟩
          rw [wp_bind, wp_run (recRange_run (recIn_of_lt index)), wp_bind,
              wp_run (tblWrite_run _ _ _ _)]
          refine ⟨List.mem_cons_self, ⟨rfl, rfl, rfl⟩, rfl, ?_⟩
          have claimed := Ag.claimed_scan (A := A) (v := w'.view) (r := (b, idx)) on.blocksize index
              bit
            block.2 (Nat.lt_of_not_le room) clear
          rwa [Ag.claimedBlock, ← view_put] at claimed
        · exact fun _ _ err => err

/-- What a claim changes in the header and in the counters of the superblock. -/
inductive Growth (A : Ag) (w w' : Work) (hdr : AgHeader) (r : Ref) : Option Nat → AgHeader → Prop
  | kept : hdr.tblArena ≠ 0 → hdr.tblArena ≤ r.1 → r.1 < hdr.tblArena + CELL_BLOCKS →
      w'.fs.sb = w.fs.sb → Growth A w w' hdr r none hdr
  | grown (c : Nat) : c < A.cells → A.rootMark w.view c = .leaf .free → r = (c * CELL_BLOCKS, 0) →
      w'.fs.sb = (w.recount (w.fs.sb.freeBlocks - CELL_BLOCKS) (w.fs.sb.rsvdBlocks + CELL_BLOCKS)
        w.fs.sb.fullBlocks).fs.sb →
      (w'.fs.hints hdr.agNum).map Prod.fst = some (c * CELL_BLOCKS) →
      Growth A w w' hdr r (some c) { hdr with
        tblArena := c * CELL_BLOCKS
        freeBlocks := hdr.freeBlocks - CELL_BLOCKS
        rsvdBlocks := hdr.rsvdBlocks + CELL_BLOCKS }

/-- A FREE cell is counted in the header and in the superblock. -/
def Counted (A : Ag) (w : Work) (hdr : AgHeader) : Prop :=
  ∀ c < A.cells, A.rootMark w.view c = .leaf .free →
    ¬ A.reserved c ∧ CELL_BLOCKS ≤ hdr.freeBlocks ∧ CELL_BLOCKS ≤ w.fs.sb.freeBlocks

theorem claimArena_wp (on : A.On w) (of : A.Of hdr) (counted : Counted A w hdr)
    {E : Err → Work → Prop}
    (refused : ∀ m, E (.bail m) w) :
    wp (claimArena hdr) (fun (r, hdr') w' => w.Kin w' ∧ ∃ grown,
      A.Claimed w.blocksize w.view w'.view r grown ∧ Growth A w w' hdr r grown hdr') E w := by
  have scan := findFree_run on of fun c (hc : c ∈ List.range A.cells) => List.mem_range.mp hc
  rw [claimArena, wp_bind, wp_get, cells_eq A of, wp_bind, wp_run scan]
  split
  · exact refused _
  · rename_i c found
    have hc : c < A.cells := List.mem_range.mp (List.mem_of_find?_eq_some found)
    have state := List.find?_some found
    have free : A.rootMark w.view c = .leaf .free := cellMark_eq_free.mpr (beq_iff_eq.mp state)
    obtain ⟨later, inHdr, inSb⟩ := counted c hc free
    obtain ⟨w₁, written, put⟩ := rtStateSet_run on of hc CELL_RSVD
    rw [wp_bind, wp_run written]
    have kin₁ := put.kin
    have sb₁ := put.sb
    rw [wp_bind, wp_run (setTblHint_run _ _ _), wp_bind, wp_run (subtract_run inHdr)]
    have kin₂ := kin₁.rehint (Function.update w₁.fs.hints hdr.agNum
      (some (c * CELL_BLOCKS, ((w₁.fs.hints hdr.agNum).getD (0, 0)).2)))
    generalize rehinted : w₁.rehint _ = w₂ at kin₂ ⊢
    have view₂ : w₂.view = w₁.view := by rw [← rehinted, view_rehint]
    have sb₂ : w₂.fs.sb = w.fs.sb := by rw [← rehinted, ← sb₁]; rfl
    rw [← sb₂] at inSb
    dsimp only
    rw [wp_bind, wp_get, wp_bind, wp_run (subtract_run inSb), wp_bind, wp_modify, wp_bind,
      wp_run (tblWrite_run _ _ _ _)]
    have block : blkAddr hdr.agNum (c * CELL_BLOCKS) = A.blk (c * CELL_BLOCKS) := by
      rw [of.num]
      rfl
    have kin₃ := kin₂.recount (w₂.fs.sb.freeBlocks - CELL_BLOCKS)
        (w₂.fs.sb.rsvdBlocks + CELL_BLOCKS)
      w₂.fs.sb.fullBlocks
    have blocksize : (w₂.recount (w₂.fs.sb.freeBlocks - CELL_BLOCKS)
        (w₂.fs.sb.rsvdBlocks + CELL_BLOCKS)
      w₂.fs.sb.fullBlocks).blocksize = w.blocksize := kin₃.blocksize
    have hint : (w₂.fs.hints hdr.agNum).map Prod.fst = some (c * CELL_BLOCKS) := by
      rw [← rehinted]
      simp [rehint]
    refine ⟨kin₃.put _ _, some c, ?_, .grown c hc free rfl ?_ hint⟩
    · rw [view_put, view_recount, view₂, blocksize, block]
      exact Ag.claimed_grow on.blocksize put hc later
    · rw [put_fs, recount, recount, sb₂]

omit [Crc32c] in
theorem mem_wrapRange {start len x : Nat} : x ∈ wrapRange start len ↔ x < len := by
  rw [wrapRange]
  by_cases none : len = 0
  · subst none
    simp
  · have bound := Nat.mod_lt start (Nat.pos_of_ne_zero none)
    rw [if_neg none]
    simp only [List.mem_append, List.mem_range'_1, List.mem_range]
    omega

theorem tblAllocRec_wp (on : A.On w) (of : A.Of hdr) (counted : Counted A w hdr)
    (arena : hdr.tblArena ≠ 0 → ∀ b, hdr.tblArena ≤ b → b < hdr.tblArena + CELL_BLOCKS →
      b < A.length ∧ ¬ A.Root b) :
    wp (tblAllocRec hdr) (fun (r, hdr') w' => w.Kin w' ∧ ∃ grown,
      A.Claimed w.blocksize w.view w'.view r grown ∧ Growth A w w' hdr r grown hdr')
      NoUnderflow w := by
  rw [tblAllocRec, wp_bind, wp_get]
  dsimp only
  rw [wp_ite]
  split
  · rename_i some
    rw [wp_bind, wp_get, wp_bind]
    apply wp_mono (arenaScan_wp on of ?_)
    · rintro (_ | r) w' post
      · cases post
        exact claimArena_wp on of counted fun m => by simp [NoUnderflow]
      · obtain ⟨member, kin, sb, claimed⟩ := post
        obtain ⟨o, inside, equal⟩ := List.mem_map.mp member
        have bound := mem_wrapRange.mp inside
        exact ⟨kin, none, claimed, .kept some (equal ▸ Nat.le_add_right _ _)
          (equal ▸ Nat.add_lt_add_left bound _) sb⟩
    · exact fun _ _ err => err
    · intro b member
      obtain ⟨o, inside, rfl⟩ := List.mem_map.mp member
      have bound := mem_wrapRange.mp inside
      exact arena some _ (Nat.le_add_right _ _) (Nat.add_lt_add_left bound _)
  · exact claimArena_wp on of counted fun m => by simp [NoUnderflow]

end Work

end FiveFs
