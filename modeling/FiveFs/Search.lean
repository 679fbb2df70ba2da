import FiveFs.Grant

/-! The searches of the allocator: every pass that succeeds hands out a run that was FREE. -/

namespace FiveFs

open Buffer Prog Refine

/-- No refined cell of the forest has only FREE children. -/
def Ag.Tidied (A : Ag) (T : Nat → Tree) : Prop := ∀ c < A.cells, Tidy (T c)

/-- A search ended with the run of `n` blocks at `l`, now FULL cells of depth `d`. -/
structure Ag.Gave [Crc32c] (A : Ag) (stale : Nat → Prop) (w : Work) (hdr : AgHeader)
    (T : Nat → Tree)
    (n d : Nat) (res : Nat × AgHeader) (w' : Work) (T' : Nat → Tree) (l : Nat) : Prop where
  block : res.1 = A.blk l
  ready : A.Ready stale w' res.2 T' none none
  moved : Moved A w w' hdr res.2 T T'
  granted : Granted A T T' l n d

section Forest

variable {A : Ag} {T : Nat → Tree} {c : Nat} {r r' : Ref} {kids kids' : Fin ALLOC_FANOUT → Tree}
variable {start m : Nat}

theorem tidy_fill (tidy : ∀ i, Tidy (kids i)) (some_run : 0 < m)
    (inside : start + m ≤ ALLOC_FANOUT) :
    Tidy (.refined r (fillKids kids start m .full)) := by
  refine ⟨⟨⟨start, by omega⟩, ?_⟩, fun i => ?_⟩
  · rw [fillKids, if_pos ⟨Nat.le_refl _, Nat.lt_add_of_pos_right some_run⟩]
    exact fun h => by cases h
  · rw [fillKids]
    split
    · trivial
    · exact tidy i

theorem tidy_kid {i : Fin ALLOC_FANOUT} (others : ∀ j, j ≠ i → Tidy (kids j)) {x : Tree}
    (busy : x ≠ .leaf .free) (tidy : Tidy x) : Tidy (.refined r (Function.update kids i x)) := by
  refine ⟨⟨i, ?_⟩, fun j => ?_⟩
  · rwa [Function.update_self]
  · by_cases same : j = i
    · subst same
      rwa [Function.update_self]
    · rw [Function.update_of_ne same]
      exact others j same

theorem Ag.Tidied.update (others : ∀ c' < A.cells, c' ≠ c → Tidy (T c')) {x : Tree}
    (tidy : Tidy x) :
    A.Tidied (Function.update T c x) := by
  intro c' hc'
  by_cases same : c' = c
  · subst same
    rwa [Function.update_self]
  · rw [Function.update_of_ne same]
    exact others c' hc' same

theorem Ag.Tidied.grow (tidy : A.Tidied T) (grown : Option Nat) : A.Tidied (Ag.grow T grown) := by
  intro c hc
  rw [Ag.grow_apply]
  split
  · trivial
  · exact tidy c hc

end Forest

namespace Ag.Gave

variable [Crc32c] {A : Ag} {stale : Nat → Prop} {w w₁ w' : Work} {T T₁ T' : Nat → Tree}
variable {hdr hdr₁ : AgHeader} {n d l : Nat} {res : Nat × AgHeader}

theorem after (moved : Moved A w w₁ hdr hdr₁ T T₁) (keeps : ∀ b s, Keeps T T₁ b s)
    (gave : A.Gave stale w₁ hdr₁ T₁ n d res w' T' l) : A.Gave stale w hdr T n d res w' T' l :=
  ⟨gave.block, gave.ready, moved.trans gave.moved, gave.granted.after keeps⟩

theorem rehint (gave : A.Gave stale w hdr T n d res w' T' l) (hints : Nat → Option (Nat × Nat)) :
    A.Gave stale w hdr T n d res (w'.rehint hints) T' l := by
  have moved := Moved.rehint (A := A) w' res.2 T' hints
  exact ⟨gave.block, ⟨gave.ready.held.same moved.kin rfl, gave.ready.tally,
    moved.covered gave.ready.covered⟩, gave.moved.trans moved, gave.granted⟩

end Ag.Gave

namespace Ag.Ready

variable [Crc32c] {A : Ag} {stale : Nat → Prop} {w : Work} {T : Nat → Tree} {hdr : AgHeader}
variable {c : Nat} {r r₀ : Ref} {kids kids₀ : Fin ALLOC_FANOUT → Tree} {start m : Nat}

theorem room (ready : A.Ready stale w hdr T none none) (hc : c < A.cells)
    (was : T c = .refined r kids) :
    (c + 1) * CELL_BLOCKS ≤ A.length := by
  apply A.whole hc
  intro fixed
  have rsvd := ready.held.reserved c hc fixed
  rw [was] at rsvd
  cases rsvd

theorem giveL1 (ready : A.Ready stale w hdr T none none) (hc : c < A.cells)
    (was : T c = .refined r kids)
    (some_run : 0 < m) (inside : start + m ≤ ALLOC_FANOUT)
    (free : ∀ i : Fin ALLOC_FANOUT, start ≤ i → i < start + m → kids i = .leaf .free) :
    ∃ w₁ w₂ hdr' T', Work.recWrite hdr.agNum r (recFill (recAt (w.view (A.blk r.1)) r.2) start m
    CELL_FULL) w =
        (.ok (), w₁) ∧
      Work.accountAlloc hdr (m * ALLOC_FANOUT) w₁ = (.ok hdr', w₂) ∧
      A.Gave stale w hdr T (m * ALLOC_FANOUT) 1
        (blkAddr hdr'.agNum (c * CELL_BLOCKS + start * ALLOC_FANOUT), hdr') w₂ T'
        (c * CELL_BLOCKS + start * ALLOC_FANOUT) ∧
      ((∀ c' < A.cells, c' ≠ c → Tidy (T c')) → (∀ i, Tidy (kids i)) → A.Tidied T') := by
  have at_path : (T c).sub [] = some (.refined r kids) := by rw [Cell.sub_nil, was]
  obtain ⟨w₁, w₂, hdr', written, counted, ready', moved⟩ := ready.fill hc at_path inside free
  rw [ready.tally.of.num]
  refine ⟨w₁, w₂, hdr', _, written, counted, ⟨?_, ready', moved,
    granted_l1 (ready.room hc was) was inside free⟩, fun others tidy => ?_⟩
  · rw [ready'.tally.of.num]
    rfl
  · rw [setAt_nil]
    exact Tidied.update others (tidy_fill tidy some_run inside)

theorem giveL2 (ready : A.Ready stale w hdr T none none) (hc : c < A.cells)
    (was : T c = .refined r₀ kids₀) {i : Fin ALLOC_FANOUT} (child : kids₀ i = .refined r kids)
    (some_run : 0 < m) (inside : start + m ≤ ALLOC_FANOUT)
    (free : ∀ j : Fin ALLOC_FANOUT, start ≤ j → j < start + m → kids j = .leaf .free) :
    ∃ w₁ w₂ hdr' T', Work.recWrite hdr.agNum r (recFill (recAt (w.view (A.blk r.1)) r.2) start m
    CELL_FULL) w =
        (.ok (), w₁) ∧
      Work.accountAlloc hdr m w₁ = (.ok hdr', w₂) ∧
      A.Gave stale w hdr T m 2
        (blkAddr hdr'.agNum (c * CELL_BLOCKS + i * ALLOC_FANOUT + start), hdr') w₂ T'
        (c * CELL_BLOCKS + i * ALLOC_FANOUT + start) ∧
      ((∀ c' < A.cells, c' ≠ c → Tidy (T c')) → (∀ j, j ≠ i → Tidy (kids₀ j)) →
        (∀ j, Tidy (kids j)) → A.Tidied T') := by
  have at_path : (T c).sub [i] = some (.refined r kids) := by
    rw [was, Cell.sub_refined, child, Cell.sub_nil]
  obtain ⟨w₁, w₂, hdr', written, counted, ready', moved⟩ := ready.fill hc at_path inside free
  have size : m * granule ([i].length + 1) = m := Nat.mul_one m
  rw [size] at counted
  rw [ready.tally.of.num]
  refine ⟨w₁, w₂, hdr', _, written, counted, ⟨?_, ready', moved,
    granted_l2 (ready.room hc was) at_path inside free⟩, fun others siblings tidy => ?_⟩
  · rw [ready'.tally.of.num]
    rfl
  · rw [setAt, was, Cell.set_refined, child, Cell.set_nil]
    exact Tidied.update others (tidy_kid siblings (fun h => by cases h)
        (tidy_fill tidy some_run inside))

end Ag.Ready

-- whole cells

/-- The cells `start..start + k` become FULL. -/
def fillRoot (T : Nat → Tree) (start k : Nat) (c : Nat) : Tree :=
  if start ≤ c ∧ c < start + k then .leaf .full else T c

theorem fillRoot_zero (T : Nat → Tree) (start : Nat) : fillRoot T start 0 = T := by
  funext c
  rw [fillRoot, if_neg]
  omega

theorem fillRoot_succ (T : Nat → Tree) (start k : Nat) :
    fillRoot T start (k + 1) = fillRoot (Function.update T start (.leaf .full)) (start + 1) k := by
  funext c
  by_cases first : c = start
  · subst first
    rw [fillRoot, fillRoot, if_pos (by omega), if_neg (by omega), Function.update_self]
  · rw [fillRoot, fillRoot, Function.update_of_ne first]
    congr 1
    simp only [eq_iff_iff]
    omega

namespace Ag

variable [Crc32c] {A : Ag} {stale : Nat → Prop} {w w' : Work} {T : Nat → Tree} {hdr : AgHeader}

omit [Crc32c] in
theorem total_fillRoot {k start : Nat} (inside : start + k ≤ A.cells)
    (free : ∀ c, start ≤ c → c < start + k → T c = .leaf .free) :
    total A.cells (fun _ => freeWeight) (fillRoot T start k) + k * CELL_BLOCKS =
        total A.cells (fun _ => freeWeight) T ∧
      total A.cells (fun _ => fullWeight) (fillRoot T start k) =
        total A.cells (fun _ => fullWeight) T + k * CELL_BLOCKS ∧
      total A.cells (rsvdWeight A.length) (fillRoot T start k) =
        total A.cells (rsvdWeight A.length) T := by
  induction k generalizing T start with
  | zero => simp [fillRoot_zero]
  | succ k ih =>
      have hc : start < A.cells := by omega
      have isFree := free start (Nat.le_refl _) (by omega)
      have moved := fun w => total_update A.cells w T hc (.leaf .full)
      have later : ∀ c, start + 1 ≤ c → c < start + 1 + k →
          Function.update T start (.leaf .full) c = .leaf .free := by
        intro c low high
        rw [Function.update_of_ne (by omega)]
        exact free c (by omega) (by omega)
      have rest := ih (by omega) later
      rw [fillRoot_succ]
      have here := moved fun _ => freeWeight
      have here' := moved fun _ => fullWeight
      have here'' := moved (rsvdWeight A.length)
      rw [isFree] at here here' here''
      simp only [Cell.weigh_leaf, freeWeight_free, freeWeight_full, fullWeight_free,
          fullWeight_full,
        rsvdWeight_open (by decide : CellState.free ≠ .rsvd),
        rsvdWeight_open (by decide : CellState.full ≠ .rsvd), granule] at here here' here''
      rw [Nat.succ_mul]
      omega

theorem Held.fillRoot (k : Nat) {start : Nat} (held : A.Held stale w T none none) (of : A.Of hdr)
    (inside : start + k ≤ A.cells) (free : ∀ c, start ≤ c → c < start + k → T c = .leaf .free) :
    ∃ w', Work.rtStateSetAll hdr CELL_FULL (List.range' start k) w = (.ok (), w') ∧
      A.Held stale w' (FiveFs.fillRoot T start k) none none ∧
      Moved A w w' hdr hdr T (FiveFs.fillRoot T start k) := by
  induction k generalizing T start w with
  | zero =>
      rw [fillRoot_zero]
      exact ⟨w, rfl, held, .refl A w hdr T⟩
  | succ k ih =>
      have hc : start < A.cells := by omega
      have isFree := free start (Nat.le_refl _) (by omega)
      obtain ⟨w₁, written, put⟩ := Work.rtStateSet_run held.on of hc CELL_FULL
      have first := held.stateSet hc put isFree (fun h => by cases h) cellMark_full (by decide)
          (fun h => by cases h)
      have moved₁ := Moved.tabled put hdr
        (rsvd_grows (T := T) (c := start) (x := .leaf .full)
        (by rw [isFree]; exact fun h => by cases h) (fun h => by cases h))
      have later : ∀ c, start + 1 ≤ c → c < start + 1 + k →
          Function.update T start (.leaf .full) c = .leaf .free := by
        intro c low high
        rw [Function.update_of_ne (by omega)]
        exact free c (by omega) (by omega)
      have rest : start + 1 + k ≤ A.cells := by omega
      obtain ⟨w', run, held', moved⟩ := ih first rest later
      rw [fillRoot_succ]
      refine ⟨w', ?_, held', moved₁.trans moved⟩
      rw [List.range'_succ, Work.rtStateSetAll, bind_ok _ _ written]
      exact run

theorem Ready.giveL0 (ready : A.Ready stale w hdr T none none) {k start : Nat} (some_run : 0 < k)
    (inside : start + k ≤ A.cells) (free : ∀ c, start ≤ c → c < start + k → T c = .leaf .free) :
    ∃ w₁ w₂ hdr', Work.rtStateSetAll hdr CELL_FULL (List.range' start k) w = (.ok (), w₁) ∧
      Work.accountAlloc hdr (k * CELL_BLOCKS) w₁ = (.ok hdr', w₂) ∧
      A.Gave stale w hdr T (k * CELL_BLOCKS) 0 (blkAddr hdr'.agNum (start * CELL_BLOCKS), hdr') w₂
        (FiveFs.fillRoot T start k) (start * CELL_BLOCKS) ∧
        (A.Tidied T → A.Tidied (FiveFs.fillRoot T start k)) := by
  obtain ⟨w₁, written, held, moved⟩ := ready.held.fillRoot k ready.tally.of inside free
  obtain ⟨weighFree, weighFull, weighRsvd⟩ := total_fillRoot inside free
  have counted := moved.covered ready.covered
  have inHdr : k * CELL_BLOCKS ≤ hdr.freeBlocks := by
    rw [ready.tally.free]
    omega
  have inSb := Nat.le_trans inHdr counted.free
  have tally := ready.tally.change (f := k * CELL_BLOCKS) (g := 0) (u := 0) (v := k * CELL_BLOCKS)
    (by omega) (by omega) weighRsvd moved.grows
  have accounted := Moved.accountAlloc (A := A) w₁ hdr (FiveFs.fillRoot T start k) inHdr inSb
  have all := moved.trans accounted
  have cell : ∀ b, start * CELL_BLOCKS ≤ b ∧ b < start * CELL_BLOCKS + k * CELL_BLOCKS ↔
      start ≤ b / CELL_BLOCKS ∧ b / CELL_BLOCKS < start + k := by
    intro b
    rw [CELL_BLOCKS]
    omega
  refine ⟨w₁, _, _, written, Work.accountAlloc_run inHdr inSb, ⟨?_,
    ⟨held.same accounted.kin rfl, tally, all.covered ready.covered⟩, all,
    ⟨?_, by decide, Nat.mul_mod_left _ _, Nat.mul_mod_left _ _, ?_, ?_, ?_⟩⟩, ?_⟩
  · show blkAddr hdr.agNum _ = blkAddr A.num _
    rw [ready.tally.of.num]
  · have last := ready.held.whole (c := start + k - 1) (by omega) (s := .free) (fun h => by cases h)
      (free _ (by omega) (by omega))
    rw [Nat.sub_add_cancel (by omega)] at last
    rwa [← Nat.add_mul]
  · intro b s low high
    obtain ⟨first, last⟩ := (cell b).mp ⟨low, high⟩
    refine ⟨0, by decide, ?_⟩
    rw [spot, free _ first last, Cell.look_leaf]
  · intro b s low high
    rw [spot, FiveFs.fillRoot, if_pos ((cell b).mp ⟨low, high⟩), Cell.look_leaf]
  · intro b s outside
    left
    rw [spot, FiveFs.fillRoot, if_neg fun here => outside ((cell b).mpr here)]
    rfl
  · intro tidy c hc
    rw [FiveFs.fillRoot]
    split
    · trivial
    · exact tidy c hc

end Ag

namespace Work

variable [Crc32c] {A : Ag} {stale : Nat → Prop} {w : Work} {T : Nat → Tree} {hdr : AgHeader}

/-- A search that hands out `n` blocks in FULL cells of depth `d`, or fails. -/
def Found (A : Ag) (stale : Nat → Prop) (w : Work) (hdr : AgHeader) (T : Nat → Tree) (n d : Nat)
    (res : Nat × AgHeader) (w' : Work) : Prop :=
  ∃ T' l, A.Gave stale w hdr T n d res w' T' l ∧ (A.Tidied T → A.Tidied T')

/-- A pass that finds nothing changes nothing. -/
def Tried (A : Ag) (stale : Nat → Prop) (w : Work) (hdr : AgHeader) (T : Nat → Tree) (n d : Nat)
    (res : Option (Nat × AgHeader)) (w' : Work) : Prop :=
  match res with
  | some found => Found A stale w hdr T n d found w'
  | none => w' = w

omit [Crc32c] in
theorem bail_noUnderflow (m : String) (w : Work) : NoUnderflow (.bail m) w := (fun h => by cases h)

theorem allocL0Scan_wp (ready : A.Ready stale w hdr T none none) {k : Nat} (m : Nat)
    {c run start : Nat}
    (upto : c + m = A.cells) (seen : run ≠ 0 → start + run = c) (short : run < k)
    (free : ∀ c', start ≤ c' → c' < start + run → T c' = .leaf .free) :
    wp (allocL0Scan hdr k (List.range' c m) run start) (Found A stale w hdr T (k * CELL_BLOCKS) 0)
      (fun e w' => (∃ msg, e = .bail msg) ∧ w' = w) w := by
  induction m generalizing c run start with
  | zero => exact ⟨⟨_, rfl⟩, rfl⟩
  | succ m ih =>
      have hc : c < A.cells := by omega
      rw [List.range'_succ, allocL0Scan, wp_bind,
          wp_run (rtState_run ready.held.on ready.tally.of hc),
        wp_ite]
      split
      · rename_i isFree
        rw [(ready.held.root hc (fun h => by cases h)).free] at isFree
        dsimp only
        generalize first : (if run = 0 then c else start) = start'
        have place : start' + run = c := by
          subst first
          split <;> omega
        have free' : ∀ c', start' ≤ c' → c' < start' + (run + 1) → T c' = .leaf .free := by
          intro c' low high
          by_cases last : c' = c
          · exact last ▸ isFree
          · have some : run ≠ 0 := by omega
            rw [if_neg some] at first
            exact free c' (first ▸ low) (by omega)
        rw [wp_ite]
        split
        · rename_i enough
          have whole : start' + k ≤ A.cells := by omega
          obtain ⟨w₁, w₂, hdr', written, counted, gave⟩ := ready.giveL0 (by omega) whole
            fun c' low high => free' c' low (by omega)
          rw [wp_bind, wp_run written, wp_bind, wp_run counted, wp_pure]
          exact ⟨_, _, gave⟩
        · rename_i more
          exact ih (by omega) (fun _ => by omega) (by omega) free'
      · exact ih (by omega) (fun none => (none rfl).elim) (by omega) fun c' low high => by omega

theorem allocL0_wp (ready : A.Ready stale w hdr T none none) {k : Nat} (some_cell : 0 < k) :
    wp (allocL0 hdr k) (Found A stale w hdr T (k * CELL_BLOCKS) 0)
      (fun e w' => (∃ msg, e = .bail msg) ∧ w' = w) w := by
  rw [allocL0, wp_bind, wp_get]
  dsimp only
  rw [cells_eq A ready.tally.of, List.range_eq_range']
  exact allocL0Scan_wp ready A.cells (Nat.zero_add _) (fun none => (none rfl).elim) some_cell
    fun c' low high => by omega

/-- What a scan reads of a cell that it finds REFINED; the read panics where the reference straddles
two blocks. -/
theorem refinedCell_wp (ready : A.Ready stale w hdr T none none) {c : Nat} (hc : c < A.cells)
    (refined : cellGet (A.table w.view) c = CELL_REFINED) {Q : Ref → Work → Prop}
    {E : Err → Work → Prop}
    (ok : ∀ r kids, T c = .refined r kids → ¬ A.Split c → A.rootRef w.view c = r →
      recRead hdr.agNum r w = (.ok (recAt (w.view (A.blk r.1)) r.2), w) → Q r w)
    (panics : A.Split c → E (.panic "range end index out of range for slice") w) :
    wp (rtRef hdr c) Q E w := by
  obtain ⟨kids, was⟩ := (ready.held.root hc (fun h => by cases h)).refined.mp refined
  apply rtRef_wp ready.held.on ready.tally.of hc ?_ panics
  intro whole
  apply ok _ kids was whole rfl
  rw [ready.tally.of.num]
  exact ready.held.recRead_run (Ag.known_of_tree hc (was ▸ refCount_self _ kids))

omit [Crc32c] in
theorem panic_noUnderflow (w : Work) :
    NoUnderflow (.panic "range end index out of range for slice") w := by
  simp [NoUnderflow]

theorem allocL1Scan_wp (ready : A.Ready stale w hdr T none none) {m : Nat} (some_run : 0 < m)
    {cs : List Nat} (inside : ∀ c ∈ cs, c < A.cells) :
    wp (allocL1Scan hdr m cs) (Tried A stale w hdr T (m * ALLOC_FANOUT) 1) NoUnderflow w := by
  induction cs with
  | nil => rfl
  | cons c rest ih =>
      have hc := inside c List.mem_cons_self
      have later := ih fun c' hc' => inside c' (List.mem_cons_of_mem _ hc')
      rw [allocL1Scan, wp_bind, wp_run (rtState_run ready.held.on ready.tally.of hc), wp_ite]
      split
      · exact later
      · rename_i refined
        rw [wp_bind]
        apply refinedCell_wp ready hc (Decidable.not_not.mp refined) _ fun _ => panic_noUnderflow w
        intro r kids was _ _ rec
        have at_path := (Cell.sub_nil (T c)).trans (congrArg some was)
        rw [wp_bind, wp_run rec]
        cases run : findRun (recAt (w.view (A.blk r.1)) r.2) m with
        | none => exact later
        | some start =>
            obtain ⟨room, states⟩ := findRun_spec some_run run
            obtain ⟨w₁, w₂, hdr', T', written, counted, gave, tidy⟩ :=
                ready.giveL1 hc was some_run room
              fun i low high => (ready.held.kid hc (fun h => by cases h) at_path i).free.mp
              (states i low high)
            dsimp only
            rw [wp_bind, wp_run written, wp_bind, wp_run counted, wp_bind,
                wp_run (setCellHint_run _ _ _),
              wp_pure]
            refine ⟨T', _, gave.rehint _, fun all => ?_⟩
            exact tidy (fun c' hc' _ => all c' hc') (was ▸ all c hc : Tidy (.refined r kids)).2

omit [Crc32c] in
theorem find_free {v : Bytes} {cells c : Nat}
    (found : (List.range cells).find? (fun c => cellGet v c == CELL_FREE) = some c) :
    c < cells ∧ cellGet v c = CELL_FREE := by
  have hit := List.find?_some found
  exact ⟨List.mem_range.mp (List.mem_of_find?_eq_some found), beq_iff_eq.mp hit⟩

theorem allocL1_wp (ready : A.Ready stale w hdr T none none) {m : Nat} (some_run : 0 < m)
    (fits : m ≤ ALLOC_FANOUT) :
    wp (allocL1 hdr m) (Found A stale w hdr T (m * ALLOC_FANOUT) 1) NoUnderflow w := by
  rw [allocL1, wp_bind, wp_get]
  dsimp only
  rw [cells_eq A ready.tally.of, wp_bind, cellHint, wp_bind, wp_get, wp_pure, wp_bind]
  apply wp_mono (allocL1Scan_wp ready some_run fun c hc => mem_wrapRange.mp hc)
  · rintro (_ | found) w' pass
    · cases pass
      dsimp only
      rw [wp_bind, wp_run (findFree_run ready.held.on ready.tally.of fun c hc =>
          List.mem_range.mp hc)]
      cases first : (List.range A.cells).find? fun c => cellGet (A.table w.view) c == CELL_FREE with
      | none => exact bail_noUnderflow _ w
      | some c =>
          obtain ⟨hc, state⟩ := find_free first
          have free := (ready.held.root hc (fun h => by cases h)).free.mp state
          dsimp only
          rw [wp_bind]
          apply wp_mono (refineL0_wp ready hc free)
          · rintro ⟨r, hdr₁⟩ w₁ ⟨grown, grows, ready₁, moved⟩
            have cell : Ag.grow T grown c = .leaf .free := by rw [grows.other (.inr rfl), free]
            have was : Function.update (Ag.grow T grown) c (blank r) c = .refined r fun _ =>
                .leaf .free :=
              Function.update_self ..
            have known : A.Known (Function.update (Ag.grow T grown) c (blank r)) none r := by
              apply Ag.known_of_tree hc
              rw [was]
              exact refCount_self r _
            have room : 0 + m ≤ ALLOC_FANOUT := by omega
            obtain ⟨w₂, w₃, hdr', T', written, counted, gave, tidy⟩ :=
                ready₁.giveL1 hc was some_run room
              fun _ _ _ => rfl
            rw [ready₁.tally.of.num] at written
            rw [Nat.zero_mul, Nat.add_zero] at gave
            dsimp only
            rw [ready₁.tally.of.num, wp_bind, wp_run (ready₁.held.recRead_run known), wp_bind,
              wp_run written, wp_bind, wp_run counted, wp_pure]
            refine ⟨T', _, gave.after moved fun b s => ?_, fun all => tidy (fun c' hc' other => ?_)
              fun _ => trivial⟩
            · exact (keeps_grow grows b s).trans (keeps_refineRoot cell r b s)
            · rw [Function.update_of_ne other]
              exact all.grow grown c' hc'
          · exact fun _ _ err => err
    · exact pass
  · exact fun _ _ err => err

theorem allocL2Children_wp (ready : A.Ready stale w hdr T none none) {n c : Nat}
    (some_block : 0 < n)
    (hc : c < A.cells) {r : Ref} {kids : Fin ALLOC_FANOUT → Tree} (was : T c = .refined r kids)
    {is : List Nat} (inside : ∀ i ∈ is, i < ALLOC_FANOUT) :
    wp (allocL2Children hdr n c (recAt (w.view (A.blk r.1)) r.2) is) (Tried A stale w hdr T n 2)
      NoUnderflow w := by
  have at_path := (Cell.sub_nil (T c)).trans (congrArg some was)
  induction is with
  | nil => rfl
  | cons i rest ih =>
      have later := ih fun j hj => inside j (List.mem_cons_of_mem _ hj)
      obtain ⟨i, rfl⟩ : ∃ i' : Fin ALLOC_FANOUT, i'.val = i :=
          ⟨⟨i, inside i List.mem_cons_self⟩, rfl⟩
      rw [allocL2Children, wp_ite]
      split
      · exact later
      · rename_i refined
        obtain ⟨kids', child⟩ := (ready.held.kid hc (fun h => by cases h) at_path i).refined.mp
            (Decidable.not_not.mp refined)
        dsimp only
        generalize recRef (recAt (w.view (A.blk r.1)) r.2) i = r' at child
        have child_path : (T c).sub [i] = some (.refined r' kids') := by
          rw [was, Cell.sub_refined, child, Cell.sub_nil]
        have known : A.Known T none r' := Ag.known_of_tree hc (refCount_sub_pos child_path)
        rw [ready.tally.of.num, wp_bind, wp_run (ready.held.recRead_run known)]
        cases run : findRun (recAt (w.view (A.blk r'.1)) r'.2) n with
        | none => exact later
        | some start =>
            obtain ⟨room, states⟩ := findRun_spec some_block run
            obtain ⟨w₁, w₂, hdr', T', written, counted, gave, tidy⟩ :=
                ready.giveL2 hc was child some_block
              room fun j low high => (ready.held.kid hc (fun h => by cases h) child_path j).free.mp
              (states j low high)
            rw [ready.tally.of.num] at written
            dsimp only
            rw [wp_bind, wp_run written, wp_bind, wp_run counted, wp_bind,
                wp_run (setCellHint_run _ _ _),
              wp_pure]
            refine ⟨T', _, gave.rehint _, fun all => ?_⟩
            have tidyCell : Tidy (.refined r kids) := was ▸ all c hc
            have tidyKid : Tidy (.refined r' kids') := child ▸ tidyCell.2 i
            exact tidy (fun c' hc' _ => all c' hc') (fun j _ => tidyCell.2 j) tidyKid.2

theorem allocL2Scan_wp (ready : A.Ready stale w hdr T none none) {n : Nat} (some_block : 0 < n)
    {cs : List Nat} (inside : ∀ c ∈ cs, c < A.cells) :
    wp (allocL2Scan hdr n cs) (Tried A stale w hdr T n 2) NoUnderflow w := by
  induction cs with
  | nil => rfl
  | cons c rest ih =>
      have hc := inside c List.mem_cons_self
      have later := ih fun c' hc' => inside c' (List.mem_cons_of_mem _ hc')
      rw [allocL2Scan, wp_bind, wp_run (rtState_run ready.held.on ready.tally.of hc), wp_ite]
      split
      · exact later
      · rename_i refined
        rw [wp_bind]
        apply refinedCell_wp ready hc (Decidable.not_not.mp refined) _ fun _ => panic_noUnderflow w
        intro r kids was _ _ rec
        rw [wp_bind, wp_run rec, wp_bind]
        apply wp_mono (allocL2Children_wp ready some_block hc was fun i hi => List.mem_range.mp hi)
        · rintro (_ | found) w' pass
          · cases pass
            exact later
          · exact pass
        · exact fun _ _ err => err

theorem fillFresh_wp (ready : A.Ready stale w hdr T none none) {n c : Nat} (some_block : 0 < n)
    (fits : n ≤ ALLOC_FANOUT) (hc : c < A.cells) {r₀ r : Ref} {kids : Fin ALLOC_FANOUT → Tree}
    {i : Fin ALLOC_FANOUT} (was : T c = .refined r₀ (Function.update kids i (blank r))) :
    recRead hdr.agNum r w = (.ok (recAt (w.view (A.blk r.1)) r.2), w) ∧
    ∃ w₁ w₂ hdr' T', recWrite hdr.agNum r (recFill (recAt (w.view (A.blk r.1)) r.2) 0 n CELL_FULL)
    w =
        (.ok (), w₁) ∧
      accountAlloc hdr n w₁ = (.ok hdr', w₂) ∧
      A.Gave stale w hdr T n 2 (blkAddr hdr'.agNum (c * CELL_BLOCKS + i * ALLOC_FANOUT), hdr') w₂ T'
        (c * CELL_BLOCKS + i * ALLOC_FANOUT) ∧
      ((∀ c' < A.cells, c' ≠ c → Tidy (T c')) → (∀ j, j ≠ i → Tidy (kids j)) → A.Tidied T') := by
  have child : Function.update kids i (blank r) i = .refined r fun _ => .leaf .free :=
    Function.update_self ..
  have child_path : (T c).sub [i] = some (.refined r fun _ => .leaf .free) := by
    rw [was, Cell.sub_refined, child, Cell.sub_nil]
  have known : A.Known T none r := Ag.known_of_tree hc (refCount_sub_pos child_path)
  have room : 0 + n ≤ ALLOC_FANOUT := by omega
  obtain ⟨w₁, w₂, hdr', T', written, counted, gave, tidy⟩ :=
      ready.giveL2 hc was child some_block room
    fun _ _ _ => rfl
  rw [Nat.add_zero] at gave
  refine ⟨?_, w₁, w₂, hdr', T', written, counted, gave, fun others siblings => ?_⟩
  · rw [ready.tally.of.num]
    exact ready.held.recRead_run known
  · apply tidy others ?_ fun _ => trivial
    intro j other
    rw [Function.update_of_ne other]
    exact siblings j other

omit [Crc32c] in
theorem find_child {rec : Bytes} {i : Nat}
    (found : (List.range ALLOC_FANOUT).find? (fun i => recState rec i == CELL_FREE) = some i) :
    ∃ i' : Fin ALLOC_FANOUT, i'.val = i ∧ recState rec i' = CELL_FREE := by
  have hit := List.find?_some found
  exact ⟨⟨i, List.mem_range.mp (List.mem_of_find?_eq_some found)⟩, rfl, beq_iff_eq.mp hit⟩

theorem allocL2Refine_wp (ready : A.Ready stale w hdr T none none) {n : Nat} (some_block : 0 < n)
    (fits : n ≤ ALLOC_FANOUT) {cs : List Nat} (inside : ∀ c ∈ cs, c < A.cells) :
    wp (allocL2Refine hdr n cs) (Tried A stale w hdr T n 2) NoUnderflow w := by
  induction cs with
  | nil => rfl
  | cons c rest ih =>
      have hc := inside c List.mem_cons_self
      have later := ih fun c' hc' => inside c' (List.mem_cons_of_mem _ hc')
      rw [allocL2Refine, wp_bind, wp_run (rtState_run ready.held.on ready.tally.of hc), wp_ite]
      split
      · exact later
      · rename_i refined
        rw [wp_bind]
        apply refinedCell_wp ready hc (Decidable.not_not.mp refined) _ fun _ => panic_noUnderflow w
        intro r kids was _ _ rec
        have at_path := (Cell.sub_nil (T c)).trans (congrArg some was)
        rw [wp_bind, wp_run rec]
        cases found : (List.range ALLOC_FANOUT).find? fun i =>
            recState (recAt (w.view (A.blk r.1)) r.2) i == CELL_FREE with
        | none => exact later
        | some i =>
            obtain ⟨i, rfl, state⟩ := find_child found
            have free := (ready.held.kid hc (fun h => by cases h) at_path i).free.mp state
            dsimp only
            rw [wp_bind]
            apply wp_mono (refineL1_wp ready hc was free)
            · rintro ⟨r', hdr₁⟩ w₁ ⟨grown, grows, ready₁, moved⟩
              have cell : Ag.grow T grown c = .refined r kids := by
                rw [grows.other (.inl (by rw [was]; exact fun h => by cases h)), was]
              obtain ⟨rec', w₂, w₃, hdr', T', written, counted, gave, tidy⟩ :=
                fillFresh_wp ready₁ some_block fits hc (Function.update_self ..)
              dsimp only
              rw [wp_bind, wp_run rec', wp_bind, wp_run written, wp_bind, wp_run counted, wp_bind,
                wp_run (setCellHint_run _ _ _), wp_pure]
              refine ⟨T', _, (gave.after moved fun b s => ?_).rehint _, fun all => tidy ?_ ?_⟩
              · exact (keeps_grow grows b s).trans (keeps_refineKid cell free r' b s)
              · intro c' hc' other
                rw [Function.update_of_ne other]
                exact all.grow grown c' hc'
              · intro j _
                exact (was ▸ all c hc : Tidy (.refined r kids)).2 j
            · exact fun _ _ err => err

/-- The first child of a record, as an index. -/
def firstKid : Fin ALLOC_FANOUT := ⟨0, by decide⟩

theorem refineBoth_wp (ready : A.Ready stale w hdr T none none) {n c : Nat} (some_block : 0 < n)
    (fits : n ≤ ALLOC_FANOUT) (hc : c < A.cells) (free : T c = .leaf .free) :
    wp (do
      let (l0, hdr) ← refineL0 hdr c
      let (l1, hdr) ← refineL1 hdr l0 firstKid
      let l1rec ← recRead hdr.agNum l1
      recWrite hdr.agNum l1 (recFill l1rec 0 n CELL_FULL)
      let hdr ← accountAlloc hdr n
      return (blkAddr hdr.agNum (c * CELL_BLOCKS), hdr)) (Found A stale w hdr T n 2) NoUnderflow
          w := by
  rw [wp_bind]
  apply wp_mono (refineL0_wp ready hc free)
  · rintro ⟨r, hdr₁⟩ w₁ ⟨grown, grows, ready₁, moved⟩
    have cell : Ag.grow T grown c = .leaf .free := by rw [grows.other (.inr rfl), free]
    have was : Function.update (Ag.grow T grown) c (blank r) c = .refined r fun _ => .leaf .free :=
      Function.update_self ..
    dsimp only
    rw [wp_bind]
    apply wp_mono (refineL1_wp ready₁ hc was (i := firstKid) rfl)
    · rintro ⟨r', hdr₂⟩ w₂ ⟨grown', grows', ready₂, moved'⟩
      have node : Ag.grow (Function.update (Ag.grow T grown) c (blank r)) grown' c =
          .refined r fun _ => .leaf .free := by
        rw [grows'.other (.inl (by rw [was]; exact fun h => by cases h)), was]
      obtain ⟨rec', w₃, w₄, hdr', T', written, counted, gave, tidy⟩ :=
        fillFresh_wp ready₂ some_block fits hc (Function.update_self ..)
      have zero : c * CELL_BLOCKS + firstKid.val * ALLOC_FANOUT = c * CELL_BLOCKS := by
        rw [firstKid, Nat.zero_mul, Nat.add_zero]
      rw [zero] at gave
      dsimp only
      rw [wp_bind, wp_run rec', wp_bind, wp_run written, wp_bind, wp_run counted, wp_pure]
      refine ⟨T', _, gave.after (moved.trans moved') fun b s => ?_,
          fun all => tidy ?_ fun _ _ => trivial⟩
      · exact (((keeps_grow grows b s).trans (keeps_refineRoot cell r b s)).trans
          (keeps_grow grows' b s)).trans (keeps_refineKid node rfl r' b s)
      · intro c' hc' other
        rw [Function.update_of_ne other, Ag.grow_apply, Function.update_of_ne other]
        split
        · trivial
        · exact all.grow grown c' hc'
    · exact fun _ _ err => err
  · exact fun _ _ err => err

theorem allocL2_wp (ready : A.Ready stale w hdr T none none) {n : Nat} (some_block : 0 < n)
    (fits : n ≤ ALLOC_FANOUT) :
    wp (allocL2 hdr n) (Found A stale w hdr T n 2) NoUnderflow w := by
  rw [allocL2, wp_bind, wp_get]
  dsimp only
  rw [cells_eq A ready.tally.of, wp_bind, cellHint, wp_bind, wp_get, wp_pure, wp_bind]
  apply wp_mono (allocL2Scan_wp ready some_block fun c hc => mem_wrapRange.mp hc)
  · rintro (_ | found) w' pass
    · cases pass
      dsimp only
      rw [wp_bind]
      apply wp_mono (allocL2Refine_wp ready some_block fits fun c hc => mem_wrapRange.mp hc)
      · rintro (_ | found) w' pass
        · cases pass
          dsimp only
          rw [wp_bind, wp_run (findFree_run ready.held.on ready.tally.of fun c hc =>
              List.mem_range.mp hc)]
          cases first : (List.range A.cells).find? fun c =>
              cellGet (A.table w.view) c == CELL_FREE with
          | none => exact bail_noUnderflow _ w
          | some c =>
              obtain ⟨hc, state⟩ := find_free first
              exact refineBoth_wp ready some_block fits hc
                  ((ready.held.root hc (fun h => by cases h)).free.mp state)
        · exact pass
      · exact fun _ _ err => err
    · exact pass
  · exact fun _ _ err => err

end Work

end FiveFs
