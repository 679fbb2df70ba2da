import FiveFs.Address
import FiveFs.Residue

/-! The calls of the allocator take the same course over both devices. -/

namespace FiveFs

open Buffer Prog

namespace Ag

variable [Crc32c] {A : Ag} {b : Bytes} {w w' w₀ : Work} {K : Common} {hdr : AgHeader} {l c m : Nat}

omit [Crc32c] in
theorem refs_openBlock {v : Nat → Bytes} {idx i : Nat}
    (closed : A.Magic v l → K.recs (recRef (recAt (v (A.blk l)) idx) i)) (null : K.recs (0, 0))
    (hi : i < ALLOC_FANOUT) : K.recs (recRef (recAt (openBlock (v (A.blk l))) idx) i) := by
  rw [openBlock]
  split
  · exact closed ‹_›
  · rw [recAt_putU32 (by decide), recAt, recRef_clip _ hi]
    exact recRef_zeros i ▸ null

theorem Shared.claim (h : A.Shared b w₀ K w) (arena : K.Arena A l) {idx : Nat} (bit : idx < 32)
    (index : idx < recsPerBlock A.blocksize) (hints : Nat → Option (Nat × Nat)) :
    A.Shared b w₀ (K.drop.learn (l, idx))
        ((w.put (A.blk l) (claimedBlock A.blocksize (openBlock (w.view (A.blk l))) idx)).rehint
        hints) ∧
      A.Same b (w.put (A.blk l) (claimedBlock A.blocksize (openBlock (w.view (A.blk l))) idx)) l ∧
      A.Magic (w.put (A.blk l) (claimedBlock A.blocksize (openBlock (w.view (A.blk l))) idx)).view
          l ∧
      getU32 ((w.put (A.blk l) (claimedBlock A.blocksize (openBlock (w.view (A.blk l))) idx)).view
          (A.blk l)) 16 =
        getU32 (openBlock (w.view (A.blk l))) 16 ||| 1 <<< idx := by
  have large := A.large
  have inside := recIn_of_lt index
  have magic := openBlock_magic (w.view (A.blk l))
  have bound : getU32 (openBlock (w.view (A.blk l))) 16 ||| 1 <<< idx < 2 ^ 32 := by
    apply Nat.or_lt_two_pow (getU32_lt _ _)
    rw [Nat.one_shiftLeft]
    exact Nat.pow_lt_pow_right (by decide) bit
  have here : (w.put (A.blk l) (claimedBlock A.blocksize (openBlock (w.view (A.blk l))) idx)).view
      (A.blk l) =
      claimedBlock A.blocksize (openBlock (w.view (A.blk l))) idx := by
    rw [Work.view_put, Function.update_self, h.on.size, claimedBlock, clip_tblSeal]
  have record : ∀ idx', RecIn A.blocksize idx' →
      recAt (claimedBlock A.blocksize (openBlock (w.view (A.blk l))) idx) idx' =
        if idx = idx' then clip REC_SIZE zeros else recAt (openBlock (w.view (A.blk l))) idx' :=
    fun idx' range => recAt_replace zeros idx' range
  have put : A.Shared b w₀ K.drop
      (w.put (A.blk l) (claimedBlock A.blocksize (openBlock (w.view (A.blk l))) idx)) := by
    refine h.drop.put arena.1 arena.2.2 (.inl arena.2.1) (fun idx' known other range i hi => ?_)
        fun _ => (fun h => by cases h)
    rw [claimedBlock, clip_tblSeal, ← claimedBlock, record idx' range]
    split
    · rw [clip_zeros, recRef_zeros]
      exact h.null
    · exact refs_openBlock (fun _ => h.closed (l, idx') known other range i hi) h.null hi
  have same : A.Same b (w.put (A.blk l) (claimedBlock A.blocksize (openBlock (w.view (A.blk l)))
      idx)) l :=
    same_put _
  refine ⟨?_, same, ?_, ?_⟩
  · refine (put.rehint hints fun _ _ => (fun h => by cases h)).learn (r := (l, idx)) arena
      (Nat.lt_trans bit (by decide)) same fun i _ => ?_
    rw [Work.view_rehint, here, record idx inside, if_pos rfl, clip_zeros, recRef_zeros]
    exact h.null
  · rw [Magic, here, claimedBlock, magic_replace _ (by omega)]
    exact magic
  · rw [here, claimedBlock, mask_replace _ (by omega) bound]

theorem Shared.found (h : A.Shared b w₀ K w) (hc : c < A.cells)
    (rsvd : A.state w.view c = CELL_RSVD)
    (open' : ¬ K.rsvd c) (untaken : ¬ K.taken c)
    (hint : (w.fs.hints A.num).map Prod.fst = some (c * CELL_BLOCKS)) :
    A.Shared b w₀ (((K.reserve c).learn (c * CELL_BLOCKS, 0)).stock (c * CELL_BLOCKS)
    (recsPerBlock A.blocksize - 1))
      (w.put (A.blk (c * CELL_BLOCKS)) (arenaBlock A.blocksize)) := by
  have large := A.large
  have cell : c * CELL_BLOCKS / CELL_BLOCKS = c := Nat.mul_div_cancel _ (by decide)
  have later : ¬ A.reserved c := fun fixed => open' (h.reserved c hc fixed)
  have recs : 0 < recsPerBlock A.blocksize := by
    rw [recsPerBlock, REC_SIZE]
    omega
  have inside := A.cell_bounds hc
  have here : (w.put (A.blk (c * CELL_BLOCKS)) (arenaBlock A.blocksize)).view
      (A.blk (c * CELL_BLOCKS)) =
      arenaBlock A.blocksize := by
    rw [Work.view_put, Function.update_self, h.on.size, arenaBlock, clip_tblSeal]
  have put : A.Shared b w₀ (K.reserve c) (w.put (A.blk (c * CELL_BLOCKS))
      (arenaBlock A.blocksize)) := by
    have kept := h.reserve hc rsvd untaken
    refine kept.put inside (cell.symm ▸ later) (.inl (.inr cell)) (fun idx known other _ _ _ => ?_)
        fun m spared => ?_
    · rcases h.place _ known with null | ⟨arena, -⟩
      · exact (other null).elim
      · exact (open' (cell ▸ arena.2.1)).elim
    · exact (open' (cell ▸ (h.spare _ m spared).1.2.1)).elim
  have arena : (K.reserve c).Arena A (c * CELL_BLOCKS) := ⟨inside, .inr cell, cell.symm ▸ later⟩
  have same : A.Same b (w.put (A.blk (c * CELL_BLOCKS)) (arenaBlock A.blocksize))
      (c * CELL_BLOCKS) := same_put _
  have known := put.learn (r := (c * CELL_BLOCKS, 0)) arena (by decide : 0 < 2 ^ 16) same
    fun i hi => by
      rw [here, arenaBlock, recAt_tblSeal (recIn_of_lt recs), recAt_putU32 (by decide),
          recAt_putU32 (by decide), recAt,
        recRef_clip _ hi]
      exact recRef_zeros i ▸ h.null
  refine known.stock arena same ?_ ?_ hint
  · rw [Magic, here, arenaBlock, magic_tblSeal (by omega), getU32, putU32, putU32,
        getBE_putBE_disjoint _ (by decide),
      getBE_putBE]
    rfl
  · have mask : getU32 (arenaBlock A.blocksize) 16 = 1 := by
      rw [arenaBlock, mask_tblSeal (by omega), getU32, putU32, getBE_putBE]
      exact Nat.mod_eq_of_lt (by decide)
    rw [here, mask, countOnes_one]
    omega

/-- The structures are in some way the same. -/
def Alike (A : Ag) (b : Bytes) (w₀ w : Work) : Prop := ∃ K, A.Shared b w₀ K w

theorem Shared.alike (h : A.Shared b w₀ K w) : A.Alike b w₀ w := ⟨K, h⟩

/-- The header moved on with the store, and `k` more records can be claimed. -/
structure Moves (A : Ag) (b : Bytes) (w₀ : Work) (K : Common) (hdr : AgHeader) (k : Nat)
    (K' : Common)
    (hdr' : AgHeader) (w' : Work) : Prop where
  le : K.Le K'
  shared : A.Shared b w₀ K' w'
  names : K'.Names A hdr'
  ino : hdr'.inoHint = hdr.inoHint
  stocked : K'.Stocked hdr' k

/-- Record `r` has been claimed, and `k` more can be. -/
structure Claims (A : Ag) (b : Bytes) (w₀ : Work) (K : Common) (hdr : AgHeader) (k : Nat)
    (K' : Common) (r : Ref)
    (hdr' : AgHeader) (w' : Work) : Prop extends A.Moves b w₀ K hdr k K' hdr' w' where
  known : K'.recs r

namespace Moves

variable {k j : Nat} {K' K'' : Common} {hdr' hdr'' : AgHeader}

theorem refl (h : A.Shared b w₀ K w) (names : K.Names A hdr) (stocked : K.Stocked hdr k) :
    A.Moves b w₀ K hdr k K hdr w :=
  ⟨Common.Le.refl K, h, names, rfl, stocked⟩

theorem trans (m : A.Moves b w₀ K hdr j K' hdr' w) (m' : A.Moves b w₀ K' hdr' k K'' hdr'' w') :
    A.Moves b w₀ K hdr k K'' hdr'' w' :=
  ⟨m.le.trans m'.le, m'.shared, m'.names, m'.ino.trans m.ino, m'.stocked⟩

theorem step (m : A.Moves b w₀ K hdr k K' hdr' w) (shared : A.Shared b w₀ K' w') :
    A.Moves b w₀ K hdr k K' hdr' w' :=
  ⟨m.le, shared, m.names, m.ino, m.stocked⟩

end Moves

end Ag

namespace Work

variable [Crc32c] {A : Ag} {b : Bytes} {w w' w₀ : Work} {K : Common} {hdr : AgHeader} {l c k : Nat}

theorem arenaRead_pair (mapped : w.Mapped (A.blk l))
    (clean : A.Same b w l ∨ ¬ A.Magic w.view l ∧ ¬ A.Magic (w.onto b).view l)
    {Q : Bytes → Work → Prop} {E : Work → Prop}
    (holds : (A.Magic w.view l → TblOk w.blocksize (w.view (A.blk l))) →
    Q (Ag.openBlock (w.view (A.blk l))) w)
    (failed : E w) : pair (onto b) (arenaRead A.num l) Q E w := by
  rcases clean with same | ⟨plain, plain'⟩
  · rw [arenaRead]
    apply pair_bind
    apply txnRead_pair mapped same
    refine pair_ite (fun magic => ?_) fun plain => pair_pure ?_
    · refine tblRead_same mapped same (fun sound => ?_) failed
      have opened : Ag.openBlock (w.view (A.blk l)) = w.view (A.blk l) := if_pos magic
      rw [opened] at holds
      exact holds fun _ => sound
    · have opened : Ag.openBlock (w.view (A.blk l)) = putU32 zeros 0 ALLOC_MAGIC := if_neg plain
      rw [opened] at holds
      exact holds fun magic => (plain magic).elim
  · have blank : ∀ w : Work, w.Mapped (A.blk l) → ¬ A.Magic w.view l →
        arenaRead A.num l w = (.ok (putU32 zeros 0 ALLOC_MAGIC), w) := by
      intro w mapped plain
      have read : txnRead (blkAddr A.num l) w = (.ok (w.view (A.blk l)), w) := txnRead_run mapped
      have different : getU32 (w.view (A.blk l)) 0 ≠ ALLOC_MAGIC := plain
      rw [arenaRead, bind_ok _ _ read, ite_run, if_neg different]
      rfl
    have opened : Ag.openBlock (w.view (A.blk l)) = putU32 zeros 0 ALLOC_MAGIC := if_neg plain
    rw [opened] at holds
    exact pair_run (blank w mapped plain) (blank (w.onto b) mapped plain')
        (holds fun magic => (plain magic).elim)

omit [Crc32c] in
theorem freeRec_pair (used nrec : Nat) {Q : Nat → Work → Prop} {E : Work → Prop}
    (holds : ∀ idx, idx < nrec → idx < 32 → used.testBit idx = false → Q idx w) (failed : E w) :
    pair (onto b) (freeRec used nrec) Q E w := by
  rw [freeRec]
  split
  · rename_i idx found
    have member := List.mem_range.mp (List.mem_of_find?_eq_some found)
    have clear := List.find?_some found
    rw [Bool.not_eq_true'] at clear
    exact pair_pure (holds idx (by omega) (by omega) clear)
  · exact pair_ite (fun _ => pair_panicWith failed) fun _ => pair_panicWith failed

omit [Crc32c] in
theorem setTblHint_pair {ag : Nat} {Q : Unit → Work → Prop} {E : Work → Prop}
    (holds : Q () (w.rehint (Function.update w.fs.hints ag
    (some (l, ((w.fs.hints ag).getD (0, 0)).2))))) :
    pair (onto b) (setTblHint ag l) Q E w :=
  pair_run (setTblHint_run w ag l) (setTblHint_run (w.onto b) ag l) holds

omit [Crc32c] in
theorem subtract_pair {x y : Nat} {Q : Nat → Work → Prop} {E : Work → Prop}
    (holds : y ≤ x → Q (x - y) w) (failed : E w) :
    pair (onto b) (subtract x y) Q E w :=
  pair_ite (fun le => pair_pure (holds le)) fun _ => pair_panicWith failed

theorem findFree_pair (h : A.Shared b w₀ K w) (of : A.Of hdr) {cs : List Nat}
    (inside : ∀ c ∈ cs, c < A.cells)
    {E : Work → Prop} {Q : Option Nat → Work → Prop} (none' : Q none w)
    (some' : ∀ c < A.cells, A.state w.view c = CELL_FREE → Q (some c) w) :
    pair (onto b) (findFree hdr cs) Q E w := by
  induction cs with
  | nil => exact pair_pure none'
  | cons c rest ih =>
      have hc := inside c List.mem_cons_self
      rw [findFree]
      apply pair_bind
      apply pair_attempt
      apply rtState_pair h of hc
      refine pair_ite (fun free => pair_pure (some' c hc free)) fun _ => ?_
      exact ih fun c hc => inside c (List.mem_cons_of_mem _ hc)

theorem arenaScan_pair (h : A.Shared b w₀ K w) (of : A.Of hdr) {order : List Nat}
    (inside : ∀ l ∈ order, K.Arena A l ∧ K.clean l) :
    pair (onto b) (arenaScan hdr (recsPerBlock A.blocksize) order) (fun found w' =>
      match found with
      | none => w' = w
      | some r => A.Shared b w₀ (K.drop.learn r) w') (A.Alike b w₀) w := by
  induction order with
  | nil => exact pair_pure rfl
  | cons l rest ih =>
      obtain ⟨arena, clean⟩ := inside l List.mem_cons_self
      rw [arenaScan, of.num]
      apply pair_bind
      refine arenaRead_pair (h.on.mapped l arena.1) (h.clean l clean) (fun _ => ?_) h.alike
      refine pair_ite (fun _ => ih fun l hl => inside l (List.mem_cons_of_mem _ hl)) fun room => ?_
      apply pair_bind
      refine freeRec_pair _ _ (fun idx index bit clear => ?_) h.alike
      apply pair_bind
      refine recRange_pair (fun _ => ?_) h.alike
      apply pair_bind
      apply tblWrite_pair
      apply pair_bind
      apply setTblHint_pair
      apply pair_pure
      rw [h.on.size]
      exact (h.claim arena bit index _).1

theorem arenaScan_first (h : A.Shared b w₀ K w) (of : A.Of hdr) {m : Nat}
    (spared : K.spare = some (l, m + 1))
    (rest : List Nat) :
    pair (onto b) (arenaScan hdr (recsPerBlock A.blocksize) (l :: rest)) (fun found w' =>
      match found with
      | none => False
      | some r => A.Shared b w₀ ((K.drop.learn r).stock l m) w') (A.Alike b w₀) w := by
  obtain ⟨arena, same, magic, room, hint⟩ := h.spare l _ spared
  have opened : Ag.openBlock (w.view (A.blk l)) = w.view (A.blk l) := if_pos magic
  rw [arenaScan, of.num]
  apply pair_bind
  refine arenaRead_pair (h.on.mapped l arena.1) (.inl same) (fun _ => ?_) h.alike
  rw [opened]
  refine pair_ite (fun full => by omega) fun _ => ?_
  apply pair_bind
  refine freeRec_pair _ _ (fun idx index bit clear => ?_) h.alike
  apply pair_bind
  refine recRange_pair (fun _ => ?_) h.alike
  apply pair_bind
  apply tblWrite_pair
  apply pair_bind
  apply setTblHint_pair
  apply pair_pure
  rw [h.on.size]
  obtain ⟨shared, same', magic', mask⟩ := h.claim arena bit index
    (Function.update w.fs.hints A.num (some (l, ((w.fs.hints A.num).getD (0, 0)).2)))
  have ones := countOnes_set bit clear
  rw [opened] at shared same' magic' mask
  refine shared.stock arena same' magic' ?_ ?_
  · rw [view_rehint, mask, ones]
    omega
  · rw [rehint]
    simp

theorem claimArena_pair (h : A.Shared b w₀ K w) (names : K.Names A hdr) {k : Nat} (few : k < 15) :
    pair (onto b) (claimArena hdr) (fun out w' => ∃ K', A.Claims b w₀ K hdr k K' out.1 out.2 w')
    (A.Alike b w₀) w := by
  have large := A.large
  rw [claimArena]
  apply pair_get rfl
  rw [cells_eq A names.of]
  apply pair_bind
  refine findFree_pair h names.of (fun c member => List.mem_range.mp member) (pair_bail h.alike)
      fun c hc free => ?_
  dsimp only
  have open' : ¬ K.rsvd c := h.open_of_state (by rw [free]; decide)
  have untaken : ¬ K.taken c := fun taken => (h.taken c taken).2.1 free
  apply pair_bind
  refine rtStateSet_pair h names.of hc (by decide) open' (fun _ => untaken) fun w₁ h₁ _ state => ?_
  apply pair_bind
  apply setTblHint_pair
  have h₂ := h₁.drop.rehint (Function.update w₁.fs.hints hdr.agNum
    (some (c * CELL_BLOCKS, ((w₁.fs.hints hdr.agNum).getD (0, 0)).2))) fun _ _ =>
    (fun h => by cases h)
  have hint : ((w₁.rehint (Function.update w₁.fs.hints hdr.agNum
      (some (c * CELL_BLOCKS, ((w₁.fs.hints hdr.agNum).getD (0, 0)).2)))).fs.hints A.num).map
      Prod.fst =
      some (c * CELL_BLOCKS) := by
    rw [names.of.num, rehint]
    simp
  have rsvd : A.state (w₁.rehint (Function.update w₁.fs.hints hdr.agNum
      (some (c * CELL_BLOCKS, ((w₁.fs.hints hdr.agNum).getD (0, 0)).2)))).view c = CELL_RSVD := by
    rw [view_rehint, state c hc, if_pos rfl]
  generalize w₁.rehint _ = w₂ at h₂ hint rsvd ⊢
  apply pair_bind
  refine subtract_pair (fun _ => ?_) h₂.alike
  apply pair_get rfl
  apply pair_bind
  refine subtract_pair (fun _ => ?_) h₂.alike
  apply pair_bind
  refine pair_modify (by rfl) ?_
  apply pair_bind
  apply tblWrite_pair
  apply pair_pure
  have h₃ := h₂.recount (w₂.fs.sb.freeBlocks - CELL_BLOCKS) (w₂.fs.sb.rsvdBlocks + CELL_BLOCKS)
      w₂.fs.sb.fullBlocks
  have rsvd₃ : A.state (w₂.recount (w₂.fs.sb.freeBlocks - CELL_BLOCKS)
      (w₂.fs.sb.rsvdBlocks + CELL_BLOCKS)
      w₂.fs.sb.fullBlocks).view c = CELL_RSVD := by
    rw [view_recount]
    exact rsvd
  have shared := h₃.found hc rsvd₃ open' untaken hint
  have block : blkAddr hdr.agNum (c * CELL_BLOCKS) = A.blk (c * CELL_BLOCKS) := by
    rw [names.of.num]
    rfl
  have size : (w₂.recount (w₂.fs.sb.freeBlocks - CELL_BLOCKS) (w₂.fs.sb.rsvdBlocks + CELL_BLOCKS)
    w₂.fs.sb.fullBlocks).blocksize = A.blocksize := h₃.on.size
  rw [block, size]
  have later : ¬ A.reserved c := fun fixed => open' (h.reserved c hc fixed)
  have recs : 15 ≤ recsPerBlock A.blocksize := by
    rw [recsPerBlock, REC_SIZE]
    omega
  have enough : k ≤ recsPerBlock A.blocksize - 1 := by omega
  refine ⟨_, ⟨?_, shared, ⟨⟨names.of.num, names.of.length, names.of.root⟩,
      .inr ⟨c, hc, rfl, .inr rfl, later⟩⟩, rfl,
    .inr (.inr ⟨recsPerBlock A.blocksize - 1, enough, rfl⟩)⟩, .inr rfl⟩
  exact ((K.le_drop.trans (K.drop.le_reserve c)).trans ((K.drop.reserve c).le_learn _)).trans
    (((K.drop.reserve c).learn _).le_stock _ _)

omit [Crc32c] in
theorem arena_blocks (names : K.Names A hdr) (some : hdr.tblArena ≠ 0) {j : Nat}
    (inside : j < CELL_BLOCKS) :
    K.Arena A (hdr.tblArena + j) := by
  rcases names.arena with none | ⟨c, hc, place, rsvd, open'⟩
  · exact (some none).elim
  · have whole := A.whole hc open'
    have cell : (hdr.tblArena + j) / CELL_BLOCKS = c := by
      rw [place]
      rw [CELL_BLOCKS] at *
      omega
    refine ⟨?_, cell.symm ▸ rsvd, cell.symm ▸ open'⟩
    rw [place]
    rw [CELL_BLOCKS] at *
    omega

theorem tblAllocRec_pair (h : A.Shared b w₀ K w) (names : K.Names A hdr) {k : Nat}
    (stocked : K.Stocked hdr (k + 1))
    (few : k < 15) :
    pair (onto b) (tblAllocRec hdr) (fun out w' => ∃ K', A.Claims b w₀ K hdr k K' out.1 out.2 w')
    (A.Alike b w₀) w := by
  rw [tblAllocRec]
  apply pair_get rfl
  dsimp only
  refine pair_ite (fun some => ?_) fun _ => claimArena_pair h names few
  apply pair_get rfl
  rw [h.on.size, names.of.num]
  rcases stocked with none | clean | ⟨m, enough, spared⟩
  · exact (some none).elim
  · apply pair_seq (arenaScan_pair h names.of ?_)
    · rintro (_ | r) w' post
      · cases post
        exact claimArena_pair h names few
      · have le := K.le_drop.trans (K.drop.le_learn r)
        exact pair_pure ⟨_, ⟨le, post, names.mono le, rfl, .inr (.inl clean)⟩, .inr rfl⟩
    · intro l member
      obtain ⟨j, inside, rfl⟩ := List.mem_map.mp member
      have bound := mem_wrapRange.mp inside
      exact ⟨arena_blocks names some bound, clean j bound⟩
  · obtain ⟨m, rfl⟩ := Nat.exists_eq_add_of_le' (Nat.le_trans (Nat.le_add_left 1 k) enough)
    have hinted := (h.spare _ _ spared).2.2.2.2
    cases found : w.fs.hints A.num with
    | none =>
        rw [found] at hinted
        cases hinted
    | some hint =>
    obtain ⟨first, c⟩ := hint
    rw [found] at hinted
    obtain rfl : first = hdr.tblArena := Option.some.inj hinted
    dsimp only
    rw [ite_self]
    have order : ∃ rest, (wrapRange (hdr.tblArena - hdr.tblArena) CELL_BLOCKS).map
        (fun o => hdr.tblArena + o) =
        hdr.tblArena :: rest := by
      rw [Nat.sub_self, wrapRange, if_neg (by decide), Nat.zero_mod, List.range_zero,
          List.append_nil,
        show CELL_BLOCKS - 0 = 255 + 1 from rfl, List.range'_succ, List.map_cons]
      exact ⟨_, rfl⟩
    obtain ⟨rest, order⟩ := order
    rw [order]
    apply pair_seq (arenaScan_first h names.of spared rest)
    rintro (_ | r) w' post
    · exact post.elim
    · have le := (K.le_drop.trans (K.drop.le_learn r)).trans
          ((K.drop.learn r).le_stock hdr.tblArena m)
      exact pair_pure ⟨_, ⟨le, post, names.mono le, rfl,
          .inr (.inr ⟨m, Nat.le_of_succ_le_succ enough, rfl⟩)⟩, .inr rfl⟩

-- what records lead to

omit [Crc32c] in
theorem leads_stateSet {data : Bytes} (leads : ∀ j < ALLOC_FANOUT, K.recs (recRef data j)) {i : Nat}
    (hi : i < ALLOC_FANOUT) (st : Nat) : ∀ j < ALLOC_FANOUT,
    K.recs (recRef (recStateSet data i st) j) := by
  intro j hj
  rw [recRef_stateSet data j st hi]
  exact leads j hj

omit [Crc32c] in
theorem leads_fill {data : Bytes} (leads : ∀ j < ALLOC_FANOUT, K.recs (recRef data j))
    {m start : Nat}
    (room : start + m ≤ ALLOC_FANOUT) (st : Nat) : ∀ j < ALLOC_FANOUT,
    K.recs (recRef (recFill data start m st) j) := by
  induction m generalizing data start with
  | zero => exact leads
  | succ m ih =>
      have rest : recFill data start (m + 1) st = recFill (recStateSet data start st) (start + 1) m
          st := by
        rw [recFill, List.range'_succ, List.foldl_cons, recFill]
      rw [rest]
      exact ih (leads_stateSet leads (by omega) st) (by omega)

theorem leads_refSet (h : A.Shared b w₀ K w) {data : Bytes}
    (leads : ∀ j < ALLOC_FANOUT, K.recs (recRef data j))
    {r : Ref} (known : K.recs r) (i : Nat) : ∀ j < ALLOC_FANOUT,
    K.recs (recRef (recRefSet data i r) j) := by
  intro j hj
  have bounds : r.1 < 2 ^ 32 ∧ r.2 < 2 ^ 16 := by
    rcases h.place r known with rfl | ⟨arena, index, -⟩
    · decide
    · exact ⟨Nat.lt_trans arena.1 A.length_lt, index⟩
  rw [recRef_refSet, Nat.mod_eq_of_lt bounds.1, Nat.mod_eq_of_lt bounds.2]
  split
  · exact known
  · exact leads j hj

omit [Crc32c] in
theorem findRun_room {r : Bytes} {m start : Nat} (found : findRun r m = some start) :
    start + m ≤ ALLOC_FANOUT := by
  rcases Nat.eq_zero_or_pos m with rfl | some_run
  · exact Nat.le_of_lt (findRun_lt found)
  · exact (findRun_spec some_run found).1

-- refinement

theorem setCellHint_pair (h : A.Shared b w₀ K w) (c : Nat) {Q : Unit → Work → Prop}
    {E : Work → Prop}
    (holds : ∀ w', A.Shared b w₀ K w' → Q () w') : pair (onto b) (setCellHint A.num c) Q E w := by
  refine pair_run (setCellHint_run w A.num c) (setCellHint_run (w.onto b) A.num c)
      (holds _ (h.rehint _ ?_))
  intro l m spared
  have hint := (h.spare l m spared).2.2.2.2
  rw [Function.update_self]
  cases found : w.fs.hints A.num with
  | none =>
      rw [found] at hint
      cases hint
  | some old =>
      rw [found] at hint
      exact hint

theorem accountAlloc_pair {K' : Common} {hdr' : AgHeader} (m : A.Moves b w₀ K hdr k K' hdr' w)
    (blocks : Nat)
    {Q : AgHeader → Work → Prop} (holds : ∀ hdr'' w', A.Moves b w₀ K hdr k K' hdr'' w' →
    Q hdr'' w') :
    pair (onto b) (accountAlloc hdr' blocks) Q (A.Alike b w₀) w := by
  rw [accountAlloc]
  apply pair_bind
  refine subtract_pair (fun _ => ?_) m.shared.alike
  apply pair_get rfl
  apply pair_bind
  refine subtract_pair (fun _ => ?_) m.shared.alike
  apply pair_bind
  refine pair_modify (by rfl) (pair_pure (holds
      _ _ ⟨m.le, m.shared.recount _ _ _, ?_, m.ino, m.stocked⟩))
  exact m.names.recount rfl rfl rfl rfl

theorem refineL0_pair (h : A.Shared b w₀ K w) (names : K.Names A hdr) (hc : c < A.cells)
    (free : A.state w.view c = CELL_FREE) (stocked : K.Stocked hdr (k + 1)) (few : k < 15) :
    pair (onto b) (refineL0 hdr c) (fun out w' => ∃ K', A.Claims b w₀ K hdr k K' out.1 out.2 w' ∧
    K'.taken c)
      (A.Alike b w₀) w := by
  have open' : ¬ K.rsvd c := h.open_of_state (by rw [free]; decide)
  rw [refineL0]
  apply pair_bind
  refine rtStateSet_pair h names.of hc (by decide) open' (fun no => absurd no (by decide))
      fun w₁ h₁ _ state => ?_
  have taken := h₁.take hc (by rw [state c hc, if_pos rfl]; decide) open'
  apply pair_seq (tblAllocRec_pair taken (names.mono (K.le_take c)) stocked few)
  rintro ⟨r, hdr'⟩ w₂ ⟨K', claims⟩
  apply pair_bind
  refine rtRefSet_pair claims.shared claims.names.of hc claims.known fun w₃ h₃ _ _ => pair_pure ?_
  exact ⟨K', ⟨⟨(K.le_take c).trans claims.le, h₃, claims.names, claims.ino, claims.stocked⟩,
      claims.known⟩,
    claims.le.taken c (.inr rfl)⟩

theorem refineL1_pair (h : A.Shared b w₀ K w) (names : K.Names A hdr) {l0 : Ref} (known : K.recs l0)
    {i : Nat}
    (hi : i < ALLOC_FANOUT) (stocked : K.Stocked hdr (k + 1)) (few : k < 15) :
    pair (onto b) (refineL1 hdr l0 i) (fun out w' => ∃ K', A.Claims b w₀ K hdr k K' out.1 out.2 w')
      (A.Alike b w₀) w := by
  rw [refineL1]
  apply pair_seq (tblAllocRec_pair h names stocked few)
  rintro ⟨r, hdr'⟩ w₁ ⟨K', claims⟩
  have l0_known := claims.le.recs l0 known
  have num := claims.names.of.num
  dsimp only at num ⊢
  rw [num]
  apply pair_bind
  refine recRead_pair claims.shared l0_known (fun data leads => ?_) claims.shared.alike
  apply pair_bind
  refine recWrite_pair claims.shared l0_known
    (leads_refSet claims.shared (leads_stateSet leads hi CELL_REFINED) claims.known i)
    (fun w₂ h₂ => ?_)
    claims.shared.alike
  exact pair_pure ⟨K', claims.toMoves.step h₂, claims.known⟩

-- allocation

/-- The block lies in the AG, outside every cell that stays RSVD. -/
def Outside (A : Ag) (K : Common) (blk : Nat) : Prop := ∃ l < A.length, blk = A.blk l ∧
    ¬ K.rsvd (l / CELL_BLOCKS)

/-- What an allocation that found room leaves. -/
def Grant (A : Ag) (b : Bytes) (w₀ : Work) (K : Common) (hdr : AgHeader) (k : Nat)
    (out : Nat × AgHeader) (w' : Work) :
    Prop :=
  ∃ K', A.Moves b w₀ K hdr k K' out.2 w' ∧ Outside A K' out.1

theorem outside_cell (h : A.Shared b w₀ K w) (of : A.Of hdr) (hc : c < A.cells) (open' : ¬ K.rsvd c)
    {x : Nat}
    (hx : x < CELL_BLOCKS) : Outside A K (blkAddr hdr.agNum (c * CELL_BLOCKS + x)) := by
  have whole := A.whole hc fun fixed => open' (h.reserved c hc fixed)
  have cell : (c * CELL_BLOCKS + x) / CELL_BLOCKS = c := by
    rw [CELL_BLOCKS] at *
    omega
  refine ⟨c * CELL_BLOCKS + x, ?_, by rw [of.num]; rfl, cell.symm ▸ open'⟩
  rw [CELL_BLOCKS] at *
  omega

theorem rtStateSetAll_pair (h : A.Shared b w₀ K w) (of : A.Of hdr) {cs : List Nat}
    (inside : ∀ c ∈ cs, c < A.cells ∧ ¬ K.rsvd c) {Q : Unit → Work → Prop} {E : Work → Prop}
    (holds : ∀ w', A.Shared b w₀ K w' → Q () w') :
    pair (onto b) (rtStateSetAll hdr CELL_FULL cs) Q E w := by
  induction cs generalizing w with
  | nil => exact pair_pure (holds w h)
  | cons c rest ih =>
      obtain ⟨hc, open'⟩ := inside c List.mem_cons_self
      rw [rtStateSetAll]
      apply pair_bind
      refine rtStateSet_pair h of hc (by decide) open' (fun no => absurd no (by decide))
          fun w₁ h₁ _ _ => ?_
      exact ih h₁ fun c hc => inside c (List.mem_cons_of_mem _ hc)

theorem allocL0Scan_pair (h : A.Shared b w₀ K w) (names : K.Names A hdr) (stocked : K.Stocked hdr k)
    {cells : Nat}
    (n i run start : Nat) (range : i + n ≤ A.cells) (behind : run = 0 ∨ start + run = i)
    (seen : ∀ x, start ≤ x → x < start + run → x < A.cells ∧ ¬ K.rsvd x) :
    pair (onto b) (allocL0Scan hdr cells (List.range' i n) run start) (Grant A b w₀ K hdr k)
    (A.Alike b w₀) w := by
  induction n generalizing i run start with
  | zero => exact pair_bail h.alike
  | succ n ih =>
      have hc : i < A.cells := by omega
      rw [List.range'_succ, allocL0Scan]
      apply pair_bind
      refine rtState_pair h names.of hc (pair_ite (fun free => ?_) fun _ => ?_)
      · have open' : ¬ K.rsvd i := h.open_of_state (by rw [free]; decide)
        have first : ∀ x, (if run = 0 then i else start) ≤ x →
            x < (if run = 0 then i else start) + (run + 1) →
            x < A.cells ∧ ¬ K.rsvd x := by
          intro x low high
          by_cases here : x = i
          · exact here ▸ ⟨hc, open'⟩
          · by_cases none : run = 0
            · rw [if_pos none] at low high
              omega
            · rw [if_neg none] at low high
              exact seen x low (by omega)
        have reach : (if run = 0 then i else start) + (run + 1) = i + 1 := by
          split
          · omega
          · omega
        dsimp only
        generalize (if run = 0 then i else start) = start' at first reach
        refine pair_ite (fun whole => ?_) fun _ => ?_
        · apply pair_bind
          refine rtStateSetAll_pair h names.of ?_ fun w₁ h₁ => ?_
          · intro x member
            have bounds := List.mem_range'_1.mp member
            exact first x bounds.1 (by omega)
          · apply pair_bind
            refine accountAlloc_pair (Ag.Moves.refl h₁ names stocked) _ fun hdr' w₂ moves =>
                pair_pure ⟨K, moves, ?_⟩
            have place := first start' (Nat.le_refl _) (by omega)
            have outside := outside_cell (x := 0) moves.shared moves.names.of place.1 place.2
                (by decide)
            rwa [Nat.add_zero] at outside
        · exact ih (i + 1) (run + 1) start' (by omega) (.inr reach) first
      · exact ih (i + 1) 0 start (by omega) (.inl rfl) fun x low high => by omega

theorem allocL0_pair (h : A.Shared b w₀ K w) (names : K.Names A hdr) (stocked : K.Stocked hdr k)
    (cells : Nat) :
    pair (onto b) (allocL0 hdr cells) (Grant A b w₀ K hdr k) (A.Alike b w₀) w := by
  rw [allocL0]
  apply pair_get rfl
  dsimp only
  rw [cells_eq A names.of, List.range_eq_range']
  exact allocL0Scan_pair h names stocked _ 0 0 0 (by omega) (.inl rfl) fun x low high => by omega

/-- A search that found room, or left everything as it was. -/
def Sought (A : Ag) (b : Bytes) (w₀ : Work) (K : Common) (hdr : AgHeader) (k : Nat) (w : Work)
    (found : Option (Nat × AgHeader)) (w' : Work) : Prop :=
  match found with
  | none => w' = w
  | some out => Grant A b w₀ K hdr k out w'

theorem allocL1Scan_pair (h : A.Shared b w₀ K w) (names : K.Names A hdr) (stocked : K.Stocked hdr k)
    (m : Nat)
    {cs : List Nat} (inside : ∀ c ∈ cs, c < A.cells) :
    pair (onto b) (allocL1Scan hdr m cs) (Sought A b w₀ K hdr k w) (A.Alike b w₀) w := by
  induction cs with
  | nil => exact pair_pure rfl
  | cons c rest ih =>
      have hc := inside c List.mem_cons_self
      have later := ih fun c hc => inside c (List.mem_cons_of_mem _ hc)
      rw [allocL1Scan]
      apply pair_bind
      refine rtState_pair h names.of hc (pair_ite (fun _ => later) fun refined => ?_)
      have state : A.state w.view c = CELL_REFINED := not_not.mp refined
      have open' : ¬ K.rsvd c := h.open_of_state (by rw [state]; decide)
      apply pair_bind
      refine rtRef_pair h names.of hc (fun r known => ?_) h.alike
      rw [names.of.num]
      apply pair_bind
      refine recRead_pair h known (fun data leads => ?_) h.alike
      cases found : findRun data m with
      | none => exact later
      | some start =>
          have room := findRun_room found
          have first := findRun_lt found
          apply pair_bind
          refine recWrite_pair h known (leads_fill leads room CELL_FULL) (fun w₁ h₁ => ?_) h.alike
          apply pair_bind
          refine accountAlloc_pair (Ag.Moves.refl h₁ names stocked) _ fun hdr' w₂ moves => ?_
          rw [moves.names.of.num]
          apply pair_bind
          refine setCellHint_pair moves.shared c fun w₃ h₃ => pair_pure ⟨K, moves.step h₃, ?_⟩
          have outside := outside_cell (x := start * ALLOC_FANOUT) h₃ moves.names.of hc open' (by
            rw [ALLOC_FANOUT] at *
            rw [CELL_BLOCKS]
            omega)
          rwa [moves.names.of.num] at outside

theorem allocL1_pair (h : A.Shared b w₀ K w) (names : K.Names A hdr)
    (stocked : K.Stocked hdr (k + 1)) (few : k < 15)
    {m : Nat} (room : m ≤ ALLOC_FANOUT) :
    pair (onto b) (allocL1 hdr m) (Grant A b w₀ K hdr k) (A.Alike b w₀) w := by
  rw [allocL1]
  apply pair_get rfl
  dsimp only
  rw [cells_eq A names.of, cellHint]
  apply pair_bind
  refine pair_get (by rfl) (pair_pure ?_)
  apply pair_seq (allocL1Scan_pair h names (stocked.mono (Nat.le_succ k)) m fun c member =>
      mem_wrapRange.mp member)
  rintro (_ | out) w₁ post
  · cases post
    apply pair_bind
    refine findFree_pair h names.of (fun c member => List.mem_range.mp member) (pair_bail h.alike)
        fun c hc free => ?_
    apply pair_seq (refineL0_pair h names hc free stocked few)
    rintro ⟨r, hdr'⟩ w₂ ⟨K', claims, taken⟩
    dsimp only
    rw [claims.names.of.num]
    apply pair_bind
    refine recRead_pair claims.shared claims.known (fun data leads => ?_) claims.shared.alike
    apply pair_bind
    refine recWrite_pair claims.shared claims.known (leads_fill leads (by omega) CELL_FULL)
        (fun w₃ h₃ => ?_)
      claims.shared.alike
    apply pair_bind
    refine accountAlloc_pair (claims.toMoves.step h₃) _ fun hdr'' w₄ moves =>
        pair_pure ⟨K', moves, ?_⟩
    have outside := outside_cell (x := 0) moves.shared moves.names.of hc
        (moves.shared.taken c taken).2.2 (by decide)
    rwa [Nat.add_zero] at outside
  · exact pair_pure post

theorem allocL2Children_pair (h : A.Shared b w₀ K w) (names : K.Names A hdr)
    (stocked : K.Stocked hdr k) (n : Nat)
    (hc : c < A.cells) (open' : ¬ K.rsvd c) {l0rec : Bytes}
    (lead : ∀ i < ALLOC_FANOUT, K.recs (recRef l0rec i))
    {is : List Nat} (inside : ∀ i ∈ is, i < ALLOC_FANOUT) :
    pair (onto b) (allocL2Children hdr n c l0rec is) (Sought A b w₀ K hdr k w) (A.Alike b w₀)
    w := by
  induction is with
  | nil => exact pair_pure rfl
  | cons i rest ih =>
      have hi := inside i List.mem_cons_self
      have later := ih fun i hi => inside i (List.mem_cons_of_mem _ hi)
      have known := lead i hi
      rw [allocL2Children]
      refine pair_ite (fun _ => later) fun _ => ?_
      rw [names.of.num]
      apply pair_bind
      refine recRead_pair h known (fun data leads => ?_) h.alike
      cases found : findRun data n with
      | none => exact later
      | some start =>
          have room := findRun_room found
          have first := findRun_lt found
          apply pair_bind
          refine recWrite_pair h known (leads_fill leads room CELL_FULL) (fun w₁ h₁ => ?_) h.alike
          apply pair_bind
          refine accountAlloc_pair (Ag.Moves.refl h₁ names stocked) _ fun hdr' w₂ moves => ?_
          rw [moves.names.of.num]
          apply pair_bind
          refine setCellHint_pair moves.shared c fun w₃ h₃ => pair_pure ⟨K, moves.step h₃, ?_⟩
          have outside := outside_cell (x := i * ALLOC_FANOUT + start) h₃ moves.names.of hc open'
              (by
            rw [ALLOC_FANOUT] at *
            rw [CELL_BLOCKS]
            omega)
          rwa [moves.names.of.num, ← Nat.add_assoc] at outside

theorem refined_pair (h : A.Shared b w₀ K w) (names : K.Names A hdr)
    (pass : List Nat → Prog Work (Option (Nat × AgHeader)))
    {cs : List Nat} (inside : ∀ c ∈ cs, c < A.cells)
    {visit : Nat → Ref → Bytes → List Nat → Prog Work (Option (Nat × AgHeader))}
    {R : Option (Nat × AgHeader) → Work → Prop}
    (nil : pass [] = pure none)
    (cons : ∀ c rest, pass (c :: rest) = do
      if (← rtState hdr c) ≠ CELL_REFINED then pass rest
      else
        let l0 ← rtRef hdr c
        let l0rec ← recRead hdr.agNum l0
        visit c l0 l0rec rest)
    (none' : R none w)
    (visited : ∀ c < A.cells, ¬ K.rsvd c → A.Shared b w₀ (K.take c) w → ∀ l0, K.recs l0 →
      ∀ l0rec, (∀ i < ALLOC_FANOUT, K.recs (recRef l0rec i)) → ∀ rest,
      pair (onto b) (pass rest) R (A.Alike b w₀) w →
      pair (onto b) (visit c l0 l0rec rest) R (A.Alike b w₀) w) :
    pair (onto b) (pass cs) R (A.Alike b w₀) w := by
  induction cs with
  | nil =>
      rw [nil]
      exact pair_pure none'
  | cons c rest ih =>
      have hc := inside c List.mem_cons_self
      have later := ih fun c hc => inside c (List.mem_cons_of_mem _ hc)
      rw [cons]
      apply pair_bind
      refine rtState_pair h names.of hc (pair_ite (fun _ => later) fun refined => ?_)
      have state : A.state w.view c = CELL_REFINED := not_not.mp refined
      have open' : ¬ K.rsvd c := h.open_of_state (by rw [state]; decide)
      apply pair_bind
      refine rtRef_pair h names.of hc (fun l0 known => ?_) h.alike
      rw [names.of.num]
      apply pair_bind
      have taken := h.take hc (by rw [state]; decide) open'
      exact recRead_pair h known (fun l0rec lead =>
          visited c hc open' taken l0 known l0rec lead rest later) h.alike

theorem allocL2Scan_pair (h : A.Shared b w₀ K w) (names : K.Names A hdr) (stocked : K.Stocked hdr k)
    (n : Nat)
    {cs : List Nat} (inside : ∀ c ∈ cs, c < A.cells) :
    pair (onto b) (allocL2Scan hdr n cs) (Sought A b w₀ K hdr k w) (A.Alike b w₀) w := by
  refine refined_pair h names (allocL2Scan hdr n) inside rfl (fun c rest => rfl) rfl ?_
  intro c hc open' _ l0 _ l0rec lead rest later
  apply pair_seq (allocL2Children_pair h names stocked n hc open' lead fun i member =>
      List.mem_range.mp member)
  rintro (_ | out) w₁ post
  · cases post
    exact later
  · exact pair_pure post

theorem allocL2Refine_pair (h : A.Shared b w₀ K w) (names : K.Names A hdr)
    (stocked : K.Stocked hdr (k + 1))
    (few : k < 15) {n : Nat} (room : n ≤ ALLOC_FANOUT) {cs : List Nat}
    (inside : ∀ c ∈ cs, c < A.cells) :
    pair (onto b) (allocL2Refine hdr n cs) (Sought A b w₀ K hdr k w) (A.Alike b w₀) w := by
  refine refined_pair h names (allocL2Refine hdr n) inside rfl (fun c rest => rfl) rfl ?_
  intro c hc _ taken l0 known l0rec lead rest later
  have le := K.le_take c
  split
  · exact later
  · rename_i i found
    have hi := List.mem_range.mp (List.mem_of_find?_eq_some found)
    apply pair_seq (refineL1_pair taken (names.mono le) known hi stocked few)
    rintro ⟨l1, hdr'⟩ w₁ ⟨K', claims⟩
    dsimp only
    rw [claims.names.of.num]
    apply pair_bind
    refine recRead_pair claims.shared claims.known (fun data leads => ?_) claims.shared.alike
    apply pair_bind
    refine recWrite_pair claims.shared claims.known (leads_fill leads (by omega) CELL_FULL)
        (fun w₂ h₂ => ?_)
      claims.shared.alike
    apply pair_bind
    refine accountAlloc_pair (claims.toMoves.step h₂) _ fun hdr'' w₃ moves => ?_
    rw [moves.names.of.num]
    apply pair_bind
    refine setCellHint_pair moves.shared c fun w₄ h₄ => pair_pure ⟨K', ?_, ?_⟩
    · exact ⟨le.trans moves.le, h₄, moves.names, moves.ino, moves.stocked⟩
    · have outside := outside_cell (x := i * ALLOC_FANOUT) h₄ moves.names.of hc
        (h₄.taken c (moves.le.taken c (.inr rfl))).2.2 (by
          rw [ALLOC_FANOUT] at *
          rw [CELL_BLOCKS]
          omega)
      rwa [moves.names.of.num] at outside

theorem allocL2_pair (h : A.Shared b w₀ K w) (names : K.Names A hdr)
    (stocked : K.Stocked hdr (k + 2)) (few : k < 14)
    {n : Nat} (room : n ≤ ALLOC_FANOUT) :
    pair (onto b) (allocL2 hdr n) (Grant A b w₀ K hdr k) (A.Alike b w₀) w := by
  rw [allocL2]
  apply pair_get rfl
  dsimp only
  rw [cells_eq A names.of, cellHint]
  apply pair_bind
  refine pair_get (by rfl) (pair_pure ?_)
  apply pair_seq (allocL2Scan_pair h names (stocked.mono (Nat.le_add_right k 2)) n fun c member =>
      mem_wrapRange.mp member)
  rintro (_ | out) w₁ post
  · cases post
    apply pair_seq (allocL2Refine_pair h names (stocked.mono (Nat.le_succ (k + 1))) (by omega) room
    fun c member =>
      mem_wrapRange.mp member)
    rintro (_ | out) w₁ post
    · cases post
      apply pair_bind
      refine findFree_pair h names.of (fun c member => List.mem_range.mp member) (pair_bail h.alike)
        fun c hc free => ?_
      apply pair_seq (refineL0_pair h names hc free stocked (by omega))
      rintro ⟨l0, hdr₁⟩ w₁ ⟨K₁, first, taken⟩
      apply pair_seq (refineL1_pair first.shared first.names first.known (by decide) first.stocked
          (by omega))
      rintro ⟨l1, hdr₂⟩ w₂ ⟨K₂, second⟩
      have both := first.toMoves.trans second.toMoves
      dsimp only
      rw [second.names.of.num]
      apply pair_bind
      refine recRead_pair second.shared second.known (fun data leads => ?_) second.shared.alike
      apply pair_bind
      refine recWrite_pair second.shared second.known (leads_fill leads (by omega) CELL_FULL)
          (fun w₃ h₃ => ?_)
        second.shared.alike
      apply pair_bind
      refine accountAlloc_pair (both.step h₃) _ fun hdr₃ w₄ moves => pair_pure ⟨K₂, moves, ?_⟩
      have outside := outside_cell (x := 0) moves.shared moves.names.of hc
        (moves.shared.taken c (second.le.taken c taken)).2.2 (by decide)
      rwa [Nat.add_zero] at outside
    · exact pair_pure post
  · exact pair_pure post

theorem allocSized_pair (h : A.Shared b w₀ K w) (names : K.Names A hdr)
    (stocked : K.Stocked hdr (k + 2)) (few : k < 14)
    (n : Nat) : pair (onto b) (allocSized hdr n) (Grant A b w₀ K hdr k) (A.Alike b w₀) w := by
  rw [allocSized]
  refine pair_ite (fun _ => allocL0_pair h names (stocked.mono (Nat.le_add_right k 2)) _)
      fun short =>
    pair_ite (fun _ => ?_) fun small => allocL2_pair h names stocked few (Nat.le_of_not_lt small)
  apply allocL1_pair h names (stocked.mono (Nat.le_succ (k + 1))) (by omega)
  rw [CELL_BLOCKS] at short
  rw [ALLOC_FANOUT]
  omega

-- headers

theorem readAgHeaderTxn_pair (h : A.Shared b w₀ K w) {Q : AgHeader → Work → Prop} {E : Work → Prop}
    (holds : ∀ hdr, AgHeader.parse (w.view A.hdrBlk) = .ok hdr → K.Names A hdr →
    hdr.inoHint < A.length → Q hdr w) :
    pair (onto b) (readAgHeaderTxn A.num) Q E w := by
  obtain ⟨hdr, parsed, names, ino⟩ := h.valid
  rw [readAgHeaderTxn]
  apply pair_bind
  refine txnRead_pair (h.on.mapped _ A.hdr_lt_length) h.header ?_
  rw [← Ag.hdrBlk, parsed]
  exact pair_pure (holds hdr parsed names ino)

theorem putAgHeader_pair (h : A.Shared b w₀ K w) (names : K.Names A hdr)
    (ino : hdr.inoHint < A.length)
    {Q : Unit → Work → Prop} {E : Work → Prop}
    (holds : ∀ w', A.Shared b w₀ K w' → (∃ hdr', AgHeader.parse (w'.view A.hdrBlk) = .ok hdr' ∧
      hdr'.tblArena = hdr.tblArena ∧ hdr'.inoHint = hdr.inoHint) → Q () w') :
    pair (onto b) (putAgHeader hdr) Q E w := by
  have next : K.Names A { hdr with gen := hdr.gen + 1 } := names.recount rfl rfl rfl rfl
  obtain ⟨shared, parsed⟩ := h.put_header next ino
  obtain ⟨-, kept, arena⟩ := next.wrap ino
  have place : blkAddr hdr.agNum (agHeaderBlock hdr.agNum) = A.hdrBlk := by
    rw [names.of.num]
    rfl
  rw [putAgHeader, place]
  exact pair_modify (by rfl) (holds _ shared ⟨_, parsed, arena, kept⟩)

theorem allocExtent_pair (h : A.Shared b w₀ K w)
    (stocked : ∀ hdr, AgHeader.parse (w.view A.hdrBlk) = .ok hdr → K.Stocked hdr (k + 2))
    (few : k < 14) (n : Nat) :
    pair (onto b) (allocExtent A.num n) (fun blk w' => ∃ K', K.Le K' ∧ A.Shared b w₀ K' w' ∧
    Outside A K' blk ∧
      ∃ hdr, AgHeader.parse (w'.view A.hdrBlk) = .ok hdr ∧ K'.Stocked hdr k) (A.Alike b w₀) w := by
  rw [allocExtent]
  apply pair_bind
  refine readAgHeaderTxn_pair h fun hdr parsed names ino => ?_
  apply pair_seq (allocSized_pair h names (stocked hdr parsed) few n)
  rintro ⟨blk, hdr'⟩ w₁ ⟨K', moves, outside⟩
  have ino' : hdr'.inoHint < A.length := by
    have same := moves.ino
    dsimp only at same
    omega
  apply pair_bind
  refine putAgHeader_pair moves.shared moves.names ino' fun w₂ h₂ put => ?_
  obtain ⟨hdr₂, parsed₂, arena, -⟩ := put
  refine pair_pure ⟨K', moves.le, h₂, outside, hdr₂, parsed₂, ?_⟩
  have after := moves.stocked
  rw [Common.Stocked] at after ⊢
  rwa [arena]

-- free and coarsen

/-- A step of a free: the same is known, and the header still is the AG's. -/
structure Keeps (A : Ag) (b : Bytes) (w₀ : Work) (K : Common) (hdr hdr' : AgHeader) (w' : Work) :
    Prop where
  shared : A.Shared b w₀ K w'
  names : K.Names A hdr'
  ino : hdr'.inoHint = hdr.inoHint

theorem accountFree_pair (h : A.Shared b w₀ K w) (names : K.Names A hdr) (blocks : Nat)
    {Q : AgHeader → Work → Prop}
    (holds : ∀ hdr' w', Keeps A b w₀ K hdr hdr' w' → Q hdr' w') :
    pair (onto b) (accountFree hdr blocks) Q (A.Shared b w₀ K) w := by
  rw [accountFree]
  apply pair_bind
  refine subtract_pair (fun _ => ?_) h
  apply pair_get rfl
  apply pair_bind
  refine subtract_pair (fun _ => ?_) h
  apply pair_bind
  refine pair_modify (by rfl) (pair_pure (holds _ _ ⟨h.recount _ _ _, ?_, rfl⟩))
  exact names.recount rfl rfl rfl rfl

theorem freeChild_pair (h : A.Shared b w₀ K w) (names : K.Names A hdr) {l0 : Ref}
    (known : K.recs l0) (l : Nat) :
    pair (onto b) (freeChild A.num hdr l0 l) (fun out w' => Keeps A b w₀ K hdr out.2 w')
    (A.Shared b w₀ K) w := by
  have hi : l % CELL_BLOCKS / ALLOC_FANOUT < ALLOC_FANOUT := by
    rw [CELL_BLOCKS, ALLOC_FANOUT]
    omega
  have hj : l % ALLOC_FANOUT < ALLOC_FANOUT := Nat.mod_lt _ (by decide)
  rw [freeChild]
  apply pair_bind
  refine recRead_pair h known (fun l0rec lead => ?_) h
  dsimp only
  refine pair_ite (fun _ => pair_ite (fun _ => pair_bail h) fun _ => ?_) fun _ =>
      pair_ite (fun _ => ?_) fun _ =>
    pair_bail h
  · apply pair_bind
    refine recWrite_pair h known (leads_stateSet lead hi CELL_FREE) (fun w₁ h₁ => ?_) h
    apply pair_bind
    exact accountFree_pair h₁ names _ fun hdr' w₂ keeps => pair_pure keeps
  · have below := lead _ hi
    apply pair_bind
    refine recRead_pair h below (fun l1rec leads => ?_) h
    refine pair_ite (fun _ => pair_bail h) fun _ => ?_
    apply pair_bind
    refine accountFree_pair h names _ fun hdr' w₁ keeps => ?_
    refine pair_ite (fun _ => ?_) fun _ => ?_
    · apply pair_bind
      refine tblFreeRec_pair keeps.shared below (fun w₂ h₂ => ?_) keeps.shared
      apply pair_bind
      refine recWrite_pair h₂ known (leads_refSet h₂ (leads_stateSet lead hi CELL_FREE) h₂.null _)
          (fun w₃ h₃ => ?_)
        h₂
      exact pair_pure ⟨h₃, keeps.names, keeps.ino⟩
    · apply pair_bind
      refine recWrite_pair keeps.shared below (leads_stateSet leads hj CELL_FREE) (fun w₂ h₂ => ?_)
          keeps.shared
      exact pair_pure ⟨h₂, keeps.names, keeps.ino⟩

theorem freeGranule_pair (h : A.Shared b w₀ K w) (untaken : ∀ c, ¬ K.taken c)
    (names : K.Names A hdr)
    (inside : l < A.length) :
    pair (onto b) (freeGranule A.num hdr l) (fun out w' => Keeps A b w₀ K hdr out.2 w')
    (A.Shared b w₀ K) w := by
  have hc := A.lt_cells inside
  rw [freeGranule]
  apply pair_bind
  refine rtState_pair h names.of hc (pair_ite (fun full =>
      pair_ite (fun _ => pair_bail h) fun _ => ?_) fun _ =>
    pair_ite (fun refined => ?_) fun _ => pair_bail h)
  · have open' : ¬ K.rsvd (l / CELL_BLOCKS) := h.open_of_state (by rw [full]; decide)
    apply pair_bind
    refine rtStateSet_pair h names.of hc (by decide) open' (fun _ => untaken _) fun w₁ h₁ _ _ => ?_
    apply pair_bind
    exact accountFree_pair h₁ names _ fun hdr' w₂ keeps => pair_pure keeps
  · have open' : ¬ K.rsvd (l / CELL_BLOCKS) := h.open_of_state (by rw [refined]; decide)
    apply pair_bind
    refine rtRef_pair h names.of hc (fun l0 known => ?_) h
    apply pair_seq (freeChild_pair h names known l)
    rintro ⟨freed, hdr'⟩ w₁ keeps
    apply pair_bind
    refine recRead_pair keeps.shared known (fun l0rec lead => ?_) keeps.shared
    refine pair_ite (fun _ => ?_) fun _ => pair_pure keeps
    apply pair_bind
    refine tblFreeRec_pair keeps.shared known (fun w₂ h₂ => ?_) keeps.shared
    apply pair_bind
    refine rtStateSet_pair h₂ keeps.names.of hc (by decide) open' (fun _ => untaken _)
        fun w₃ h₃ _ _ => ?_
    apply pair_bind
    refine rtRefSet_pair h₃ keeps.names.of hc h₃.null fun w₄ h₄ _ _ => ?_
    exact pair_pure ⟨h₄, keeps.names, keeps.ino⟩

theorem freeLoop_pair (untaken : ∀ c, ¬ K.taken c) {n : Nat} (inside : l + n ≤ A.length)
    (fuel cur : Nat)
    {hdr : AgHeader} {w : Work} (h : A.Shared b w₀ K w) (names : K.Names A hdr) :
    pair (onto b) (freeLoop A.num l n fuel cur hdr) (Keeps A b w₀ K hdr) (A.Shared b w₀ K) w := by
  induction fuel generalizing cur hdr w with
  | zero => exact pair_pure ⟨h, names, rfl⟩
  | succ fuel ih =>
      rw [freeLoop]
      refine pair_ite (fun more => ?_) fun _ => pair_pure ⟨h, names, rfl⟩
      apply pair_seq (freeGranule_pair h untaken names (by omega))
      rintro ⟨freed, hdr'⟩ w₁ keeps
      apply pair_mono (ih (cur + freed) keeps.shared keeps.names)
      · exact fun hdr'' w₂ later => ⟨later.shared, later.names, later.ino.trans keeps.ino⟩
      · exact fun _ => id

theorem freeExtent_pair (h : A.Shared b w₀ K w) (untaken : ∀ c, ¬ K.taken c) {n : Nat}
    (inside : l + n ≤ A.length)
    (small : l < 2 ^ 32) :
    pair (onto b) (freeExtent (A.blk l) n) (fun _ w' => A.Shared b w₀ K w')
    (A.Shared b w₀ K) w := by
  rw [freeExtent, Ag.blk, blkSplit_blkAddr _ small]
  apply pair_bind
  refine readAgHeaderTxn_pair h fun hdr parsed names ino => ?_
  apply pair_seq (freeLoop_pair untaken inside n 0 h names)
  intro hdr' w₁ keeps
  exact putAgHeader_pair keeps.shared keeps.names (keeps.ino ▸ ino) fun w₂ h₂ _ => h₂

-- inodes

theorem put_outside (h : A.Shared b w₀ K w) (inside : l < A.length)
    (open' : ¬ K.rsvd (l / CELL_BLOCKS))
    (named : K.touched l) (data : Bytes) : A.Shared b w₀ K (w.put (A.blk l) data) := by
  refine h.put inside (fun fixed => open' (h.reserved _ (A.lt_cells inside) fixed)) (.inr named)
      (fun idx known other _ _ _ => ?_)
    fun m spared => (open' (h.spare l m spared).1.2.1).elim
  rcases h.place _ known with null | ⟨arena, -⟩
  · exact (other null).elim
  · exact (open' arena.2.1).elim

/-- The L1 record of a block, and the child index. -/
def Leads (K : Common) (found : Option (Ref × Ref × Nat)) : Prop :=
  ∀ r l1 j, found = some (r, l1, j) → K.recs r ∧ K.recs l1 ∧ j < ALLOC_FANOUT

theorem slotL1Of_pair (h : A.Shared b w₀ K w) (names : K.Names A hdr) (inside : l < A.length)
    {Q : Option (Ref × Ref × Nat) → Work → Prop} (holds : ∀ found, Leads K found → Q found w) :
    pair (onto b) (slotL1Of hdr l) Q (A.Alike b w₀) w := by
  have hi : l % CELL_BLOCKS / ALLOC_FANOUT < ALLOC_FANOUT := by
    rw [CELL_BLOCKS, ALLOC_FANOUT]
    omega
  have none' : Q none w := holds none fun _ _ _ => (fun h => by cases h)
  rw [slotL1Of]
  apply pair_bind
  refine rtState_pair h names.of (A.lt_cells inside)
      (pair_ite (fun _ => pair_pure none') fun _ => ?_)
  apply pair_bind
  refine rtRef_pair h names.of (A.lt_cells inside) (fun l0 known => ?_) h.alike
  rw [names.of.num]
  apply pair_bind
  refine recRead_pair h known (fun l0rec lead => ?_) h.alike
  refine pair_ite (fun _ => pair_pure none') fun _ => pair_pure (holds _ ?_)
  rintro r l1 j found
  cases found
  exact ⟨known, lead _ hi, Nat.mod_lt _ (by decide)⟩

theorem slotRecAt_pair (h : A.Shared b w₀ K w) (names : K.Names A hdr) (inside : l < A.length)
    {Q : Option (Ref × Ref × Nat) → Work → Prop} {E : Work → Prop}
    (holds : ∀ found, Leads K found → Q found w) (failed : E w) :
    pair (onto b) (slotRecAt hdr l) Q E w := by
  have hi : l % CELL_BLOCKS / ALLOC_FANOUT < ALLOC_FANOUT := by
    rw [CELL_BLOCKS, ALLOC_FANOUT]
    omega
  have hj : l % ALLOC_FANOUT < ALLOC_FANOUT := Nat.mod_lt _ (by decide)
  have none' : Q none w := holds none fun _ _ _ => (fun h => by cases h)
  rw [slotRecAt]
  apply pair_bind
  refine rtState_pair h names.of (A.lt_cells inside)
      (pair_ite (fun _ => pair_pure none') fun _ => ?_)
  apply pair_bind
  refine rtRef_pair h names.of (A.lt_cells inside) (fun l0 known => ?_) failed
  rw [names.of.num]
  apply pair_bind
  refine recRead_pair h known (fun l0rec lead => ?_) failed
  refine pair_ite (fun _ => pair_pure none') fun _ => ?_
  apply pair_bind
  refine recRead_pair h (lead _ hi) (fun l1rec leads => ?_) failed
  refine pair_ite (fun _ => pair_pure none') fun _ => pair_pure (holds _ ?_)
  rintro r l1 j found
  cases found
  exact ⟨leads _ hj, lead _ hi, hj⟩

omit [Crc32c] in
theorem slotNumber_pair {x slots s : Nat} {Q : Nat → Work → Prop} {E : Work → Prop}
    (holds : ∀ slot, Q slot w)
    (failed : E w) : pair (onto b) (slotNumber x slots s) Q E w := by
  rw [slotNumber]
  refine pair_ite (fun _ => pair_panicWith failed) fun _ => ?_
  exact pair_ite (fun _ => pair_panicWith failed) fun _ => pair_pure (holds _)

theorem newSlotBlock_pair (h : A.Shared b w₀ K w) (touched : ∀ l, K.touched l)
    (stocked : ∀ hdr, AgHeader.parse (w.view A.hdrBlk) = .ok hdr → K.Stocked hdr 3) (slots : Nat) :
    pair (onto b) (newSlotBlock A.num slots) (fun _ w' => ∃ K', K.Le K' ∧ A.Shared b w₀ K' w')
    (A.Alike b w₀) w := by
  rw [newSlotBlock]
  apply pair_seq (allocExtent_pair h stocked (by decide) 1)
  rintro blk w₁ ⟨K₁, le, h₁, ⟨l, inside, rfl, open'⟩, hdr₁, parsed₁, stocked₁⟩
  have split : (blkSplit (A.blk l)).2 = l := by
    rw [Ag.blk, blkSplit_blkAddr _ (Nat.lt_trans inside A.length_lt)]
  rw [split]
  apply pair_bind
  refine pair_modify (by rfl) ?_
  have h₂ : A.Shared b w₀ K₁ (w₁.put (A.blk l) zeros) :=
      put_outside h₁ inside open' (le.touched l (touched l)) zeros
  have other : agHeaderBlock A.num ≠ l := by
    rintro rfl
    exact open' (h₁.reserved _ (A.lt_cells inside) A.hdr_reserved)
  have same : (w₁.put (A.blk l) zeros).view A.hdrBlk = w₁.view A.hdrBlk := view_put_ne zeros other
  apply pair_bind
  refine readAgHeaderTxn_pair h₂ fun hdr parsed names ino => ?_
  rw [same, parsed₁] at parsed
  cases parsed
  apply pair_seq (tblAllocRec_pair h₂ names stocked₁ (by decide))
  rintro ⟨l3, hdr₂⟩ w₂ ⟨K₂, claims⟩
  apply pair_bind
  refine slotL1Of_pair claims.shared claims.names inside fun found leads => ?_
  rcases found with _ | ⟨l0, l1, j⟩
  · exact pair_bail claims.shared.alike
  · obtain ⟨-, known, hj⟩ := leads l0 l1 j rfl
    apply pair_bind
    refine recRead_pair claims.shared known (fun l1rec below => ?_) claims.shared.alike
    apply pair_bind
    refine recWrite_pair claims.shared known
      (leads_refSet claims.shared (leads_stateSet below hj CELL_REFINED) claims.known j)
      (fun w₃ h₃ => ?_)
      claims.shared.alike
    apply pair_bind
    refine recWrite_pair h₃ claims.known
      (leads_stateSet (fun j _ => recRef_zeros j ▸ h₃.null) (by decide) CELL_FULL) (fun w₄ h₄ => ?_)
      h₃.alike
    apply pair_bind
    have names₂ : K₂.Names A { hdr₂ with inoHint := l } := claims.names.recount rfl rfl rfl rfl
    refine putAgHeader_pair h₄ names₂ inside fun w₅ h₅ _ => ?_
    apply pair_bind
    refine slotNumber_pair (fun slot => ?_) h₅.alike
    exact pair_pure ⟨K₂, le.trans claims.le, h₅⟩

theorem hintedSlot_pair (h : A.Shared b w₀ K w) (names : K.Names A hdr)
    (ino : hdr.inoHint < A.length) (slots : Nat)
    (fan : slots ≤ ALLOC_FANOUT) :
    pair (onto b) (hintedSlot hdr A.num slots) (fun found w' =>
      match found with
      | none => w' = w
      | some _ => A.Shared b w₀ K w') (A.Alike b w₀) w := by
  rw [hintedSlot]
  refine pair_ite (fun _ => pair_pure rfl) fun _ => ?_
  apply pair_bind
  refine slotRecAt_pair h names ino (fun found leads => ?_) h.alike
  rcases found with _ | ⟨l3, l1, j⟩
  · exact pair_pure rfl
  · obtain ⟨known, -, -⟩ := leads l3 l1 j rfl
    apply pair_bind
    refine recRead_pair h known (fun l3rec below => ?_) h.alike
    split
    · exact pair_pure rfl
    · rename_i s free
      have hs := List.mem_range.mp (List.mem_of_find?_eq_some free)
      apply pair_bind
      refine recWrite_pair h known (leads_stateSet below (by omega) CELL_FULL) (fun w₁ h₁ => ?_)
          h.alike
      apply pair_bind
      refine slotNumber_pair (fun slot => ?_) h₁.alike
      exact pair_pure h₁

theorem allocInode_pair (h : A.Shared b w₀ K w) (touched : ∀ l, K.touched l)
    (stocked : ∀ hdr, AgHeader.parse (w.view A.hdrBlk) = .ok hdr → K.Stocked hdr 3)
    (fan : slotsPerBlock w.fs.sb ≤ ALLOC_FANOUT) :
    pair (onto b) (allocInode A.num) (fun _ w' => ∃ K', K.Le K' ∧ A.Shared b w₀ K' w')
    (A.Alike b w₀) w := by
  rw [allocInode]
  apply pair_bind
  refine readAgHeaderTxn_pair h fun hdr parsed names ino => ?_
  apply pair_get rfl
  apply pair_seq (hintedSlot_pair h names ino _ fan)
  rintro (_ | ino) w₁ post
  · cases post
    exact newSlotBlock_pair h touched stocked _
  · exact pair_pure ⟨K, Common.Le.refl K, post⟩

/-- What is left of the release of inode `ino` once its slot `s` of block `l` is cleared. -/
def releaseSlot (ino ag l s : Nat) : Prog Work Unit := do
  let hdr ← readAgHeaderTxn ag
  match ← slotRecAt hdr l with
  | none => bail s!"inode {hex ino}: containing block is not slot-refined"
  | some (l3, l1, j) =>
      let l3rec ← recRead ag l3
      let l3rec := recStateSet l3rec s CELL_FREE
      if recAll l3rec CELL_FREE then
        tblFreeRec ag l3
        let l1rec ← recRead ag l1
        recWrite ag l1 (recRefSet (recStateSet l1rec j CELL_FULL) j (0, 0))
        freeExtent (blkAddr ag l) 1
        let hdr ← readAgHeaderTxn ag
        if hdr.inoHint = l then putAgHeader { hdr with inoHint := 0 }
        else return ()
      else
        recWrite ag l3 l3rec
        if hdr.inoHint ≠ l then putAgHeader { hdr with inoHint := l }
        else return ()

theorem freeInode_eq (ino : Nat) (w : Work) :
    freeInode ino w = (do
      let buf ← txnRead (blkAddr (blkSplit ino).1 ((blkSplit ino).2 / slotsPerBlock w.fs.sb))
      txnWrite (blkAddr (blkSplit ino).1 ((blkSplit ino).2 / slotsPerBlock w.fs.sb))
        (copyAt buf ((blkSplit ino).2 % slotsPerBlock w.fs.sb * w.fs.sb.inodesize) w.fs.sb.inodesize
        zeros)
      releaseSlot ino (blkSplit ino).1 ((blkSplit ino).2 / slotsPerBlock w.fs.sb)
        ((blkSplit ino).2 % slotsPerBlock w.fs.sb) : Prog Work Unit) w := rfl

theorem releaseSlot_pair (h : A.Shared b w₀ K w) (untaken : ∀ c, ¬ K.taken c)
    (inside : l < A.length) {s : Nat}
    (hs : s < ALLOC_FANOUT) (ino : Nat) :
    pair (onto b) (releaseSlot ino A.num l s) (fun _ w' => A.Shared b w₀ K w')
    (A.Shared b w₀ K) w := by
  rw [releaseSlot]
  apply pair_bind
  refine readAgHeaderTxn_pair h fun hdr parsed names ino => ?_
  apply pair_bind
  refine slotRecAt_pair h names inside (fun found leads => ?_) h
  rcases found with _ | ⟨l3, l1, j⟩
  · exact pair_bail h
  · obtain ⟨slot_known, known, hj⟩ := leads l3 l1 j rfl
    apply pair_bind
    refine recRead_pair h slot_known (fun l3rec below => ?_) h
    refine pair_ite (fun _ => ?_) fun _ => ?_
    · -- the slot block goes back
      apply pair_bind
      refine tblFreeRec_pair h slot_known (fun w₂ h₂ => ?_) h
      apply pair_bind
      refine recRead_pair h₂ known (fun l1rec leads' => ?_) h₂
      apply pair_bind
      refine recWrite_pair h₂ known (leads_refSet h₂ (leads_stateSet leads' hj CELL_FULL) h₂.null j)
          (fun w₃ h₃ => ?_)
        h₂
      apply pair_seq (freeExtent_pair h₃ untaken (n := 1) (by omega)
          (Nat.lt_trans inside A.length_lt))
      intro _ w₄ h₄
      apply pair_bind
      refine readAgHeaderTxn_pair h₄ fun hdr₄ _ names₄ ino₄ => ?_
      refine pair_ite (fun _ => ?_) fun _ => pair_pure h₄
      have cleared : K.Names A { hdr₄ with inoHint := 0 } := names₄.recount rfl rfl rfl rfl
      exact putAgHeader_pair h₄ cleared A.length_pos fun w₅ h₅ _ => h₅
    · apply pair_bind
      refine recWrite_pair h slot_known (leads_stateSet below hs CELL_FREE) (fun w₂ h₂ => ?_)
          h
      refine pair_ite (fun _ => ?_) fun _ => pair_pure h₂
      have pointed : K.Names A { hdr with inoHint := l } := names.recount rfl rfl rfl rfl
      exact putAgHeader_pair h₂ pointed inside fun w₃ h₃ _ => h₃

theorem freeInode_pair (h : A.Shared b w₀ K w) (untaken : ∀ c, ¬ K.taken c) {slot : Nat}
    (small : slot < 2 ^ 32)
    (inside : slot / slotsPerBlock w.fs.sb < A.length)
    (same : A.Same b w (slot / slotsPerBlock w.fs.sb))
    (open' : ¬ K.rsvd (slot / slotsPerBlock w.fs.sb / CELL_BLOCKS))
    (touched : K.touched (slot / slotsPerBlock w.fs.sb))
    (fan : slotsPerBlock w.fs.sb ≤ ALLOC_FANOUT)
    (some_slot : 0 < slotsPerBlock w.fs.sb) :
    pair (onto b) (freeInode (A.blk slot)) (fun _ w' => A.Shared b w₀ K w') (A.Alike b w₀) w := by
  have hs : slot % slotsPerBlock w.fs.sb < ALLOC_FANOUT :=
      Nat.lt_of_lt_of_le (Nat.mod_lt _ some_slot) fan
  rw [freeInode, Ag.blk, blkSplit_blkAddr _ small]
  apply pair_get rfl
  dsimp only
  apply pair_bind
  refine txnRead_pair (h.on.mapped _ inside) same ?_
  apply pair_bind
  refine pair_modify (by rfl) ?_
  exact pair_mono (releaseSlot_pair (put_outside h inside open' touched _) untaken inside hs _)
    (fun _ _ => id) fun _ same => same.alike

end Work

end FiveFs
