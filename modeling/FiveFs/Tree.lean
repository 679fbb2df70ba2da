import FiveFs.Claim

/-! The refinement forest of an AG: how the store holds it, and what every record operation does to
it. -/

namespace FiveFs

open Buffer Prog Refine

/-- Blocks covered by a cell at a depth. -/
def granule : Nat → Nat
  | 0 => CELL_BLOCKS
  | 1 => ALLOC_FANOUT
  | 2 => 1
  | _ => 0

def freeWeight : Weight CellState Ref where
  leaf d s := if s = .free then granule d else 0
  node _ _ := 0

/-- A slot-refined block counts as full. -/
def fullWeight : Weight CellState Ref where
  leaf d s := if s = .full then granule d else 0
  node d _ := if d = 2 then 1 else 0

/-- The last cell of an AG may be partial. -/
def rsvdWeight (length c : Nat) : Weight CellState Ref where
  leaf _ s := if s = .rsvd then min CELL_BLOCKS (length - c * CELL_BLOCKS) else 0
  node _ _ := 0

/-- All children FREE. -/
def blank (r : Ref) : Tree := .refined r fun _ => .leaf .free

/-- RSVD cells are root cells, and refinement ends at the inode slots. -/
def Shape : Nat → Tree → Prop
  | d, .leaf s => s = .rsvd → d = 0
  | d, .refined _ kids => d < 3 ∧ ∀ i, Shape (d + 1) (kids i)

/-- No refined cell has only FREE children. -/
def Tidy : Tree → Prop
  | .leaf _ => True
  | .refined _ kids => (∃ i, kids i ≠ .leaf .free) ∧ ∀ i, Tidy (kids i)

namespace Ag

/-- The block is in a cell that became a table arena. -/
def Arena (A : Ag) (T : Nat → Tree) (l : Nat) : Prop :=
  l < A.length ∧ T (l / CELL_BLOCKS) = .leaf .rsvd ∧ ¬ A.reserved (l / CELL_BLOCKS)

/-- The record can be referred to. -/
structure Live [Crc32c] (A : Ag) (bs : Nat) (v : Nat → Bytes) (T : Nat → Tree) (r : Ref) :
    Prop where
  arena : A.Arena T r.1
  sound : TblOk bs (v (A.blk r.1))
  index : r.2 < recsPerBlock bs
  bit : r.2 < 32
  used : A.Used v r

/-- The record is referred to, or claimed and about to be. -/
def Known (A : Ag) (T : Nat → Tree) (loose : Option Ref) (r : Ref) : Prop :=
  0 < refTotal A.cells T r ∨ loose = some r

/-- The store holds the forest `T`. Cell `half` is marked REFINED and has no record yet; record
`loose` is claimed and not referred to yet. Blocks of `stale` may look like table blocks by what
they held before. -/
structure Held [Crc32c] (A : Ag) (stale : Nat → Prop) (w : Work) (T : Nat → Tree)
    (half : Option Nat)
    (loose : Option Ref) : Prop where
  on : A.On w
  models : ∀ c < A.cells, half ≠ some c → Models (A.kidMark w.view) (A.rootMark w.view c) (T c)
  pending : ∀ c, half = some c →
    c < A.cells ∧ T c = .leaf .free ∧ cellGet (A.table w.view) c = CELL_REFINED
  once : ∀ r, refTotal A.cells T r ≤ 1
  live : ∀ r, A.Known T loose r → A.Live w.blocksize w.view T r
  spare : ∀ r, loose = some r → refTotal A.cells T r = 0 ∧ ∀ i, A.kidMark w.view r i = .leaf .free
  reserved : ∀ c < A.cells, A.reserved c → T c = .leaf .rsvd
  shape : ∀ c < A.cells, Shape 0 (T c)
  exact : ∀ r, A.Used w.view r → A.Arena T r.1 → ¬ stale r.1 → A.Known T loose r
  blank : ∀ l < A.length, T (l / CELL_BLOCKS) ≠ .leaf .rsvd → ¬ stale l → ¬ A.Magic w.view l

/-- The header counts the forest. -/
structure Tally (A : Ag) (hdr : AgHeader) (T : Nat → Tree) : Prop where
  of : A.Of hdr
  free : hdr.freeBlocks = total A.cells (fun _ => freeWeight) T
  full : hdr.fullBlocks = total A.cells (fun _ => fullWeight) T
  rsvd : hdr.rsvdBlocks = total A.cells (rsvdWeight A.length) T
  arena : hdr.tblArena ≠ 0 →
    hdr.tblArena % CELL_BLOCKS = 0 ∧ hdr.tblArena / CELL_BLOCKS < A.cells ∧
    T (hdr.tblArena / CELL_BLOCKS) = .leaf .rsvd ∧ ¬ A.reserved (hdr.tblArena / CELL_BLOCKS)

variable [Crc32c] {A : Ag} {stale : Nat → Prop} {w w' : Work} {T T' : Nat → Tree}
    {hdr hdr' : AgHeader}
variable {half half' : Option Nat} {loose loose' : Option Ref} {c : Nat} {r r' : Ref}

omit [Crc32c] in
theorem Arena.ne_root {l : Nat} (h : A.Arena T l) : ¬ A.Root l :=
  fun root => h.2.2 (A.root_reserved root)

theorem Live.recIn {bs : Nat} {v : Nat → Bytes} (h : A.Live bs v T r) : RecIn bs r.2 :=
  recIn_of_lt h.index

theorem Live.ne_root {bs : Nat} {v : Nat → Bytes} (h : A.Live bs v T r) : ¬ A.Root r.1 :=
  h.arena.ne_root

omit [Crc32c] in
theorem known_of_tree {r : Ref} (hc : c < A.cells) (here : 0 < (T c).refCount r) :
    A.Known T loose r :=
  .inl (Nat.lt_of_lt_of_le here (refCount_le_refTotal hc T r))

theorem Held.head (h : A.Held stale w T half loose) : T 0 = .leaf .rsvd :=
  h.reserved 0 A.cells_pos A.reserved_zero

theorem Held.root_rsvd (h : A.Held stale w T half loose) {l : Nat} (root : A.Root l) :
    T (l / CELL_BLOCKS) = .leaf .rsvd :=
  h.reserved _ (A.lt_cells root.lt) (A.root_reserved root)

theorem Held.step (h : A.Held stale w T half loose) (kin : w.Kin w') (released : Ref → Prop)
    (models : ∀ c < A.cells, half' ≠ some c → Models (A.kidMark w'.view) (A.rootMark w'.view c)
    (T' c))
    (pending : ∀ c, half' = some c →
      c < A.cells ∧ T' c = .leaf .free ∧ cellGet (A.table w'.view) c = CELL_REFINED)
    (once : ∀ r, refTotal A.cells T' r ≤ 1)
    (known : ∀ r, A.Known T' loose' r ↔ A.Known T loose r ∧ ¬ released r)
    (spare : ∀ r, loose' = some r →
      refTotal A.cells T' r = 0 ∧ ∀ i, A.kidMark w'.view r i = .leaf .free)
    (rsvd : ∀ c, T' c = .leaf .rsvd ↔ T c = .leaf .rsvd)
    (shape : ∀ c < A.cells, Shape 0 (T' c))
    (used : ∀ r, ¬ A.Root r.1 → (A.Used w'.view r ↔ A.Used w.view r ∧ ¬ released r))
    (sound : ∀ l, ¬ A.Root l → TblOk w.blocksize (w.view (A.blk l)) →
      TblOk w.blocksize (w'.view (A.blk l)))
    (magic : ∀ l, ¬ A.Root l → (A.Magic w'.view l ↔ A.Magic w.view l)) :
    A.Held stale w' T' half' loose' := by
  have arena : ∀ l, A.Arena T' l ↔ A.Arena T l := fun l => by rw [Arena, Arena, rsvd]
  refine ⟨h.on.kin kin, models, pending, once, ?_, spare, ?_, shape, ?_, ?_⟩
  · intro r here
    have before := (known r).mp here
    have live := h.live r before.1
    rw [kin.blocksize]
    exact ⟨(arena r.1).mpr live.arena, sound _ live.ne_root live.sound, live.index, live.bit,
      (used r live.ne_root).mpr ⟨live.used, before.2⟩⟩
  · exact fun c hc fixed => (rsvd c).mpr (h.reserved c hc fixed)
  · intro r is_used inArena fresh
    have before := (used r inArena.ne_root).mp is_used
    exact (known r).mpr ⟨h.exact r before.1 ((arena r.1).mp inArena) fresh, before.2⟩
  · intro l inside open' fresh is_magic
    have cell : T (l / CELL_BLOCKS) ≠ .leaf .rsvd := fun equal => open' ((rsvd _).mpr equal)
    have apart : ¬ A.Root l := fun root => cell (h.root_rsvd root)
    exact h.blank l inside cell fresh ((magic l apart).mp is_magic)

omit [Crc32c] in
theorem kidMark_frame {v v' : Nat → Bytes} (same : v' (A.blk r.1) = v (A.blk r.1)) :
    A.kidMark v' r = A.kidMark v r := by
  funext i
  rw [kidMark, kidMark, same]

omit [Crc32c] in
theorem used_frame {v v' : Nat → Bytes} (same : v' (A.blk r.1) = v (A.blk r.1)) :
    A.Used v' r ↔ A.Used v r := by
  rw [Used, Used, Magic, Magic, same]

theorem Held.rootStep (h : A.Held stale w T half loose) {data : Bytes} (put : A.Tabled w w' data)
    (models : ∀ c < A.cells, half' ≠ some c → Models (A.kidMark w'.view) (A.rootMark w'.view c)
    (T' c))
    (pending : ∀ c, half' = some c →
      c < A.cells ∧ T' c = .leaf .free ∧ cellGet (A.table w'.view) c = CELL_REFINED)
    (once : ∀ r, refTotal A.cells T' r ≤ 1)
    (known : ∀ r, A.Known T' loose' r ↔ A.Known T loose r)
    (spare : ∀ r, loose' = some r → refTotal A.cells T' r = 0 ∧ ∀ i,
        A.kidMark w'.view r i = .leaf .free)
    (rsvd : ∀ c, T' c = .leaf .rsvd ↔ T c = .leaf .rsvd)
    (shape : ∀ c < A.cells, Shape 0 (T' c)) : A.Held stale w' T' half' loose' := by
  apply h.step put.kin (fun _ => False) models pending once (by simpa using known) spare rsvd shape
  · intro r other
    rw [used_frame (put.view other)]
    simp
  · intro l other ok
    rw [put.view other]
    exact ok
  · intro l other
    rw [Magic, Magic, put.view other]

theorem Held.models_root (h : A.Held stale w T half loose) {data : Bytes} (put : A.Tabled w w' data)
    {c' : Nat} (hc' : c' < A.cells) (whole : half ≠ some c')
    (mark : A.rootMark w'.view c' = A.rootMark w.view c') :
    Models (A.kidMark w'.view) (A.rootMark w'.view c') (T c') := by
  rw [mark]
  apply (h.models c' hc' whole).frame
  intro r here
  exact kidMark_frame (put.view (h.live r (known_of_tree hc' here)).ne_root)

omit [Crc32c] in
theorem rsvd_update {x : Tree} (was : T c ≠ .leaf .rsvd) (is : x ≠ .leaf .rsvd) (c' : Nat) :
    Function.update T c x c' = .leaf .rsvd ↔ T c' = .leaf .rsvd := by
  by_cases same : c' = c
  · subst same
    rw [Function.update_self]
    exact ⟨fun equal => (is equal).elim, fun equal => (was equal).elim⟩
  · rw [Function.update_of_ne same]

omit [Crc32c] in
theorem shape_update {x : Tree} (shape : ∀ c < A.cells, Shape 0 (T c)) (new : Shape 0 x) :
    ∀ c' < A.cells, Shape 0 (Function.update T c x c') := by
  intro c' hc'
  by_cases same : c' = c
  · subst same
    rw [Function.update_self]
    exact new
  · rw [Function.update_of_ne same]
    exact shape c' hc'

theorem Held.stateSet (h : A.Held stale w T none loose) (hc : c < A.cells) {s₀ s : CellState}
    {st : Nat}
    (put : A.Tabled w w' (cellSet (A.table w.view) c st)) (was : T c = .leaf s₀)
    (open₀ : s₀ ≠ .rsvd)
    (code : ∀ ref, cellMark st ref = .leaf s) (small : st < 4) (open' : s ≠ .rsvd) :
    A.Held stale w' (Function.update T c (.leaf s)) none loose := by
  have refs : ∀ r, refTotal A.cells (Function.update T c (.leaf s)) r = refTotal A.cells T r := by
    intro r
    have moved := refTotal_update A.cells T hc (.leaf s) r
    rw [was] at moved
    simpa using moved
  have mark : ∀ c' < A.cells, A.rootMark w'.view c' =
      if c' = c then .leaf s else A.rootMark w.view c' := by
    intro c' hc'
    rw [rootMark_stateSet put hc hc' small, code]
  apply h.rootStep put
  · intro c' hc' _
    by_cases same : c' = c
    · subst same
      rw [Function.update_self, mark c' hc', if_pos rfl]
      rfl
    · rw [Function.update_of_ne same]
      apply h.models_root put hc' (fun h => by cases h)
      rw [mark c' hc', if_neg same]
  · exact fun _ h => by cases h
  · exact fun r => (refs r).symm ▸ h.once r
  · intro r
    rw [Known, Known, refs]
  · intro r spare
    have before := h.spare r spare
    refine ⟨(refs r).trans before.1, fun i => ?_⟩
    rw [kidMark_frame (put.view (h.live r (.inr spare)).ne_root)]
    exact before.2 i
  · exact rsvd_update (by rw [was]; simpa using open₀) (by simpa using open')
  · exact shape_update h.shape fun equal => (open' equal).elim

theorem Held.begin (h : A.Held stale w T none none) (hc : c < A.cells)
    (put : A.Tabled w w' (cellSet (A.table w.view) c CELL_REFINED)) (free : T c = .leaf .free) :
    A.Held stale w' T (some c) none := by
  apply h.rootStep put
  · intro c' hc' whole
    have other : c' ≠ c := fun equal => whole (equal ▸ rfl)
    apply h.models_root put hc' (fun h => by cases h)
    rw [rootMark_stateSet put hc hc' (by decide), if_neg other]
  · rintro c' equal
    cases equal
    refine ⟨hc, free, ?_⟩
    rw [put.state hc, cellGet, cellSet, get2_set2 _ _ _ (by decide), if_pos rfl]
  · exact h.once
  · exact fun _ => Iff.rfl
  · exact fun _ h => by cases h
  · exact fun _ => Iff.rfl
  · exact h.shape

omit [Crc32c] in
theorem refCount_blank (r r' : Ref) : (FiveFs.blank r).refCount r' = if r = r' then 1 else 0 := by
  rw [FiveFs.blank, refCount_refined]
  simp

theorem Live.block_lt {bs : Nat} {v : Nat → Bytes} (h : A.Live bs v T r) : r.1 < 2 ^ 32 :=
  Nat.lt_trans h.arena.1 A.length_lt

theorem Live.index_lt {bs : Nat} {v : Nat → Bytes} (h : A.Live bs v T r) : r.2 < 2 ^ 16 :=
  Nat.lt_trans h.bit (by decide)

theorem Held.linkRoot (h : A.Held stale w T (some c) (some r))
    (put : A.Tabled w w' (copyAt (A.table w.view) (rtRefOff A.cells c) 6 (sixBytes r))) :
    A.Held stale w' (Function.update T c (FiveFs.blank r)) none none := by
  obtain ⟨hc, free, refined⟩ := h.pending c rfl
  have live := h.live r (.inr rfl)
  have spare := h.spare r rfl
  have refs : ∀ r', refTotal A.cells (Function.update T c (FiveFs.blank r)) r' =
      refTotal A.cells T r' + if r = r' then 1 else 0 := by
    intro r'
    have moved := refTotal_update A.cells T hc (FiveFs.blank r) r'
    rw [free, refCount_blank] at moved
    simpa using moved
  apply h.rootStep put
  · intro c' hc' _
    by_cases same : c' = c
    · subst same
      rw [Function.update_self, rootMark_refSet put hc' live.block_lt live.index_lt, if_pos rfl,
          refined]
      refine ⟨rfl, fun i => ?_⟩
      rw [kidMark_frame (put.view live.ne_root)]
      exact spare.2 i
    · rw [Function.update_of_ne same]
      apply h.models_root put hc' (fun equal => same (Option.some.inj equal).symm)
      rw [rootMark_refSet put hc' live.block_lt live.index_lt, if_neg same]
  · exact fun _ h => by cases h
  · intro r'
    rw [refs]
    split
    · rename_i equal
      rw [← equal, spare.1]
    · exact h.once r'
  · intro r'
    rw [Known, Known, refs]
    by_cases equal : r = r'
    · simp [equal]
    · simp [equal]
  · exact fun _ h => by cases h
  · exact rsvd_update (by rw [free]; exact fun h => by cases h) (fun h => by cases h)
  · exact shape_update h.shape ⟨by decide, fun _ => (fun h => by cases h)⟩

/-- The forest after a claim. -/
def grow (T : Nat → Tree) : Option Nat → Nat → Tree
  | none => T
  | some c => Function.update T c (.leaf .rsvd)

omit [Crc32c] in
theorem grow_apply (T : Nat → Tree) (grown : Option Nat) (c : Nat) :
    grow T grown c = if grown = some c then .leaf .rsvd else T c := by
  cases grown with
  | none => simp [grow]
  | some c' =>
      by_cases same : c = c'
      · simp [grow, same]
      · simp [grow, Function.update_of_ne same, Ne.symm same]

/-- Where a record is claimed: in an arena, or in a FREE cell that becomes one. -/
def Place (A : Ag) (T : Nat → Tree) (half : Option Nat) (r : Ref) : Option Nat → Prop
  | none => A.Arena T r.1
  | some c => c < A.cells ∧ T c = .leaf .free ∧ half ≠ some c ∧ r.1 = c * CELL_BLOCKS

omit [Crc32c] in
theorem Held.refTotal_grow {grown : Option Nat} (place : A.Place T half r grown) (r' : Ref) :
    refTotal A.cells (grow T grown) r' = refTotal A.cells T r' := by
  cases grown with
  | none => rfl
  | some c =>
      have moved := refTotal_update A.cells T place.1 (.leaf .rsvd) r'
      rw [place.2.1] at moved
      exact moved

theorem Held.arena_grow (h : A.Held stale w T half loose) {grown : Option Nat}
    (place : A.Place T half r grown) : A.Arena (grow T grown) r.1 := by
  cases grown with
  | none => exact place
  | some c =>
      have cell : r.1 / CELL_BLOCKS = c := by
        rw [place.2.2.2, Nat.mul_div_cancel _ (by decide)]
      refine ⟨place.2.2.2 ▸ A.cell_bounds place.1, ?_, fun fixed => ?_⟩
      · rw [cell, grow_apply, if_pos rfl]
      · rw [cell] at fixed
        have rsvd := h.reserved c place.1 fixed
        rw [place.2.1] at rsvd
        cases rsvd

theorem Held.claim (h : A.Held stale w T half none) (kin : w.Kin w') {grown : Option Nat}
    (claimed : A.Claimed w.blocksize w.view w'.view r grown) (place : A.Place T half r grown) :
    A.Held stale w' (grow T grown) half (some r) := by
  have refs := Held.refTotal_grow place
  have unref : refTotal A.cells T r = 0 := by
    by_contra referred
    have live := h.live r (.inl (Nat.pos_of_ne_zero referred))
    cases grown with
    | none => exact claimed.unused rfl live.used
    | some c =>
        have rsvd := live.arena.2.1
        rw [place.2.2.2, Nat.mul_div_cancel _ (by decide), place.2.1] at rsvd
        cases rsvd
  have cell_ne : ∀ {l}, T (l / CELL_BLOCKS) = .leaf .rsvd → ∀ c, grown = some c →
      l / CELL_BLOCKS ≠ c := by
    rintro l rsvd c rfl rfl
    rw [place.2.1] at rsvd
    cases rsvd
  have kept : ∀ r', 0 < refTotal A.cells T r' → A.kidMark w'.view r' = A.kidMark w.view r' ∧
      A.Used w'.view r' ∧ TblOk w.blocksize (w'.view (A.blk r'.1)) := by
    intro r' referred
    have live := h.live r' (.inl referred)
    apply claimed.kept r' ?_ live.recIn live.used live.sound live.ne_root (cell_ne live.arena.2.1)
    rintro rfl
    omega
  refine ⟨h.on.kin kin, ?_, ?_, ?_, ?_, ?_, ?_, ?_, ?_, ?_⟩
  · intro c hc whole
    rw [claimed.root c hc, grow_apply]
    split
    · rfl
    · apply (h.models c hc whole).frame
      intro r' here
      exact (kept r' (Nat.lt_of_lt_of_le here (refCount_le_refTotal hc T r'))).1
  · intro c equal
    have before := h.pending c equal
    have other : grown ≠ some c := by
      rintro rfl
      exact place.2.2.1 equal
    refine ⟨before.1, ?_, ?_⟩
    · rw [grow_apply, if_neg other]
      exact before.2.1
    · have mark := claimed.root c before.1
      rw [if_neg other, rootMark, rootMark, before.2.2, cellMark_refined] at mark
      exact (cellMark_eq_refined.mp mark).1
  · exact fun r' => (refs r').symm ▸ h.once r'
  · rintro r' (referred | equal)
    · rw [refs] at referred
      have live := h.live r' (.inl referred)
      have after := kept r' referred
      rw [kin.blocksize]
      refine ⟨⟨live.arena.1, ?_, live.arena.2.2⟩, after.2.2, live.index, live.bit, after.2.1⟩
      rw [grow_apply, live.arena.2.1, ite_self]
    · cases equal
      rw [kin.blocksize]
      exact ⟨h.arena_grow place, claimed.sound, claimed.index, claimed.bit, claimed.used⟩
  · rintro r' equal
    cases equal
    exact ⟨(refs r).trans unref, claimed.zero⟩
  · intro c hc fixed
    rw [grow_apply, h.reserved c hc fixed, ite_self]
  · intro c hc
    rw [grow_apply]
    split
    · exact fun _ => rfl
    · exact h.shape c hc
  · intro r' is_used inArena fresh
    rcases claimed.exact r' inArena.ne_root is_used with rfl | before
    · exact .inr rfl
    · by_cases old : T (r'.1 / CELL_BLOCKS) = .leaf .rsvd
      · rcases h.exact r' before ⟨inArena.1, old, inArena.2.2⟩ fresh with referred | none
        · exact .inl ((refs r').symm ▸ referred)
        · cases none
      · exact (h.blank r'.1 inArena.1 old fresh before.1).elim
  · intro l inside open' fresh is_magic
    rw [grow_apply] at open'
    have old : T (l / CELL_BLOCKS) ≠ .leaf .rsvd := by
      intro equal
      rw [equal, ite_self] at open'
      exact open' rfl
    have apart : l ≠ r.1 := by
      rintro rfl
      apply open'
      rw [← grow_apply]
      exact (h.arena_grow place).2.1
    have root : ¬ A.Root l := fun root => old (h.root_rsvd root)
    have same := claimed.frame (A.blk l) (fun equal => apart (A.blk_inj.mp equal))
      (fun l' inRoot equal => root (A.blk_inj.mp equal ▸ inRoot))
    rw [Magic, same] at is_magic
    exact h.blank l inside old fresh is_magic

omit [Crc32c] in
theorem shape_sub {d : Nat} {x y : Tree} {p : List (Fin ALLOC_FANOUT)} (shape : Shape d x)
    (at_path : x.sub p = some y) : Shape (d + p.length) y := by
  induction p generalizing d x with
  | nil =>
      cases Option.some.inj ((Cell.sub_nil x).symm.trans at_path)
      exact shape
  | cons i p ih =>
      cases x with
      | leaf s => cases at_path
      | refined r kids =>
          have below := ih (shape.2 i) at_path
          rwa [List.length_cons, show d + (p.length + 1) = d + 1 + p.length by omega]

omit [Crc32c] in
theorem shape_set {d : Nat} {x y z : Tree} {p : List (Fin ALLOC_FANOUT)} (shape : Shape d x)
    (at_path : x.sub p = some y) (new : Shape (d + p.length) z) : Shape d (x.set p z) := by
  induction p generalizing d x with
  | nil =>
      rw [Cell.set_nil]
      exact new
  | cons i p ih =>
      cases x with
      | leaf s => cases at_path
      | refined r kids =>
          rw [Cell.set_refined]
          refine ⟨shape.1, fun j => ?_⟩
          by_cases path : j = i
          · subst path
            rw [Function.update_self]
            apply ih (shape.2 j) at_path
            rwa [List.length_cons, show d + (p.length + 1) = d + 1 + p.length by omega] at new
          · rw [Function.update_of_ne path]
            exact shape.2 j

theorem Held.recordStep (h : A.Held stale w T none loose) (kin : w.Kin w')
    {p : List (Fin ALLOC_FANOUT)}
    {kids kids' : Fin ALLOC_FANOUT → Tree} (hc : c < A.cells)
    (at_path : (T c).sub p = some (.refined r kids)) (released : Ref → Prop)
    (inside : ∀ r', released r' → 0 < (T c).refCount r')
    (root : ∀ c < A.cells, A.rootMark w'.view c = A.rootMark w.view c)
    (kid : ∀ r', r' ≠ r → A.Known T loose r' → ¬ released r' →
    A.kidMark w'.view r' = A.kidMark w.view r')
    (children : ∀ i, A.kidMark w'.view r i = A.kidMark w.view r i ∧ kids' i = kids i ∨
      Models (A.kidMark w'.view) (A.kidMark w'.view r i) (kids' i))
    (shape : ∀ i, Shape (p.length + 1) (kids' i))
    (once : ∀ r', refTotal A.cells (setAt T c p (.refined r kids')) r' ≤ 1)
    (known : ∀ r', A.Known (setAt T c p (.refined r kids')) loose' r' ↔
      A.Known T loose r' ∧ ¬ released r')
    (spare : ∀ r', loose' = some r' → refTotal A.cells (setAt T c p (.refined r kids')) r' = 0 ∧
      ∀ i, A.kidMark w'.view r' i = .leaf .free)
    (used : ∀ r', ¬ A.Root r'.1 → (A.Used w'.view r' ↔ A.Used w.view r' ∧ ¬ released r'))
    (sound : ∀ l, TblOk w.blocksize (w.view (A.blk l)) → TblOk w.blocksize (w'.view (A.blk l)))
    (magic : ∀ l, A.Magic w'.view l ↔ A.Magic w.view l) :
    A.Held stale w' (setAt T c p (.refined r kids')) none loose' := by
  have here : 0 < (T c).refCount r := refCount_sub_pos at_path
  have depth := (shape_sub (h.shape c hc) at_path).1
  have node : Shape (0 + p.length) (.refined r kids') :=
    ⟨depth, fun i => by rw [Nat.zero_add]; exact shape i⟩
  have new : 0 < ((T c).set p (.refined r kids')).refCount r :=
    refCount_sub_pos (Cell.set_sub at_path _)
  apply h.step kin released ?_ ?_ once known spare ?_ ?_ used (fun l _ => sound l)
      (fun l _ => magic l)
  · intro c' hc' _
    rw [root c' hc']
    by_cases same : c' = c
    · subst same
      rw [setAt_self]
      refine (h.models c' hc' (fun h => by cases h)).rewrite at_path
        (Nat.le_trans (refCount_le_refTotal hc T r) (h.once r)) ?_ children
      intro r' other inTree
      have after : A.Known (setAt T c' p (.refined r kids')) loose' r' := by
        apply known_of_tree hc
        rwa [setAt_self]
      have before := (known r').mp after
      exact kid r' other before.1 before.2
    · rw [setAt_of_ne same]
      apply (h.models c' hc' (fun h => by cases h)).frame
      intro r' inTree
      have apart : ∀ r'', 0 < (T c).refCount r'' → (T c').refCount r'' = 0 :=
        fun r'' pos => refCount_other_tree hc hc' same (h.once r'') pos
      apply kid r' ?_ (known_of_tree hc' inTree)
      · intro gone
        have none := apart r' (inside r' gone)
        omega
      · rintro rfl
        have none := apart r' here
        omega
  · exact fun _ h => by cases h
  · exact rsvd_update (Cell.ne_leaf_of_sub at_path _)
        (Cell.ne_leaf_of_sub (Cell.set_sub at_path _) _)
  · exact shape_update h.shape (shape_set (h.shape c hc) at_path node)

/-- The marks of a rewritten record: each child as before, or a leaf that held no record. -/
def Leaves (old new : Fin ALLOC_FANOUT → Mark CellState Ref)
    (kids kids' : Fin ALLOC_FANOUT → Tree) : Prop :=
  ∀ i, new i = old i ∧ kids' i = kids i ∨
    ∃ s₀ s, kids i = .leaf s₀ ∧ kids' i = .leaf s ∧ s ≠ .rsvd ∧ new i = .leaf s

theorem Held.rewrite (h : A.Held stale w T none loose) (kin : w.Kin w')
    {p : List (Fin ALLOC_FANOUT)}
    {kids kids' : Fin ALLOC_FANOUT → Tree} {marks : Fin ALLOC_FANOUT → Mark CellState Ref}
    (hc : c < A.cells) (at_path : (T c).sub p = some (.refined r kids))
    (rewritten : A.Rewritten w.blocksize w.view w'.view r marks)
    (used : ∀ r', A.Used w'.view r' ↔ A.Used w.view r')
    (leaves : Leaves (A.kidMark w.view r) marks kids kids') :
    A.Held stale w' (setAt T c p (.refined r kids')) none loose := by
  have live := h.live r (known_of_tree hc (refCount_sub_pos at_path))
  have kidRefs : ∀ r' i, (kids' i).refCount r' = (kids i).refCount r' := by
    intro r' i
    rcases leaves i with ⟨_, kept⟩ | ⟨s₀, s, was, is, _⟩
    · rw [kept]
    · rw [was, is, refCount_leaf, refCount_leaf]
  have refs : ∀ r', refTotal A.cells (setAt T c p (.refined r kids')) r' = refTotal A.cells T
      r' := by
    intro r'
    have moved := refTotal_setAt hc at_path (.refined r kids') r'
    rw [refCount_refined, refCount_refined, Finset.sum_congr rfl fun i _ => kidRefs r' i] at moved
    omega
  have loose_ne : ∀ r', loose = some r' → r' ≠ r := by
    rintro r' spare rfl
    have none := (h.spare r' spare).1
    have pos := Nat.lt_of_lt_of_le (refCount_sub_pos at_path) (refCount_le_refTotal hc T r')
    omega
  have shape := (shape_sub (h.shape c hc) at_path).2
  rw [Nat.zero_add] at shape
  apply h.recordStep kin hc at_path (fun _ => False) (fun _ => False.elim)
      (fun _ hc' => rewritten.root live.ne_root hc')
  · exact fun r' other known _ => rewritten.kid r' other (h.live r' known).recIn
  · intro i
    rw [rewritten.here]
    rcases leaves i with kept | ⟨s₀, s, _, is, _, mark⟩
    · exact .inl kept
    · right
      rw [is, mark]
      rfl
  · intro i
    rcases leaves i with ⟨_, kept⟩ | ⟨s₀, s, _, is, open', _⟩
    · exact kept ▸ shape i
    · rw [is]
      exact fun equal => (open' equal).elim
  · exact fun r' => (refs r').symm ▸ h.once r'
  · intro r'
    rw [Known, Known, refs]
    simp
  · intro r' spare
    have before := h.spare r' spare
    refine ⟨(refs r').trans before.1, ?_⟩
    rw [rewritten.kid r' (loose_ne r' spare) (h.live r' (.inr spare)).recIn]
    exact before.2
  · intro r' _
    rw [used]
    simp
  · exact rewritten.sound
  · exact rewritten.magic

/-- The claimed record is linked to a FREE or FULL child. -/
theorem Held.link (h : A.Held stale w T none (some r')) (kin : w.Kin w')
    {p : List (Fin ALLOC_FANOUT)}
    {kids : Fin ALLOC_FANOUT → Tree} {marks : Fin ALLOC_FANOUT → Mark CellState Ref}
    (hc : c < A.cells) (at_path : (T c).sub p = some (.refined r kids)) {i : Fin ALLOC_FANOUT}
    {s : CellState} (was : kids i = .leaf s) (deep : p.length < 2)
    (rewritten : A.Rewritten w.blocksize w.view w'.view r marks)
    (used : ∀ r', A.Used w'.view r' ↔ A.Used w.view r')
    (new : ∀ j, marks j = if i = j then .refined r' else A.kidMark w.view r j) :
    A.Held stale w' (setAt T c p (.refined r (Function.update kids i (FiveFs.blank r')))) none
    none := by
  have live := h.live r (known_of_tree hc (refCount_sub_pos at_path))
  have spare := h.spare r' rfl
  have other : r' ≠ r := by
    rintro rfl
    have pos := Nat.lt_of_lt_of_le (refCount_sub_pos at_path) (refCount_le_refTotal hc T r')
    omega
  have refs : ∀ r₀, refTotal A.cells
      (setAt T c p (.refined r (Function.update kids i (FiveFs.blank r')))) r₀ =
      refTotal A.cells T r₀ + if r' = r₀ then 1 else 0 := by
    intro r₀
    have moved := refTotal_setKid hc at_path i (FiveFs.blank r') r₀
    rwa [was, refCount_leaf, refCount_blank, Nat.add_zero] at moved
  have shape := (shape_sub (h.shape c hc) at_path).2
  rw [Nat.zero_add] at shape
  apply h.recordStep kin hc at_path (fun _ => False) (fun _ => False.elim)
    (fun _ hc' => rewritten.root live.ne_root hc')
  · exact fun r₀ apart known _ => rewritten.kid r₀ apart (h.live r₀ known).recIn
  · intro j
    rw [rewritten.here, new]
    by_cases same : i = j
    · subst same
      right
      rw [if_pos rfl, Function.update_self]
      refine ⟨rfl, fun l => ?_⟩
      rw [rewritten.kid r' other (h.live r' (.inr rfl)).recIn]
      exact spare.2 l
    · left
      rw [if_neg same, Function.update_of_ne (Ne.symm same)]
      exact ⟨rfl, rfl⟩
  · intro j
    by_cases same : i = j
    · subst same
      rw [Function.update_self]
      exact ⟨by omega, fun _ => (fun h => by cases h)⟩
    · rw [Function.update_of_ne (Ne.symm same)]
      exact shape j
  · intro r₀
    rw [refs]
    split
    · rename_i equal
      rw [← equal, spare.1]
    · exact h.once r₀
  · intro r₀
    rw [Known, Known, refs]
    by_cases equal : r' = r₀
    · simp [equal]
    · simp [equal]
  · exact fun _ h => by cases h
  · intro r₀ _
    rw [used]
    simp
  · exact rewritten.sound
  · exact rewritten.magic

/-- A child is unlinked from its record, which held leaves alone and is released. -/
theorem Held.unlink (h : A.Held stale w T none none) (kin : w.Kin w') {p : List (Fin ALLOC_FANOUT)}
    {kids kids' : Fin ALLOC_FANOUT → Tree} (hc : c < A.cells)
    (at_path : (T c).sub p = some (.refined r kids)) {i : Fin ALLOC_FANOUT}
    (was : kids i = .refined r' kids') (bare : ∀ r j, (kids' j).refCount r = 0) {s : CellState}
    (open' : s ≠ .rsvd) (root : ∀ c < A.cells, A.rootMark w'.view c = A.rootMark w.view c)
    (here : ∀ j, A.kidMark w'.view r j = if i = j then .leaf s else A.kidMark w.view r j)
    (kid : ∀ r₀, r₀ ≠ r → r₀ ≠ r' → RecIn w.blocksize r₀.2 →
      A.kidMark w'.view r₀ = A.kidMark w.view r₀)
    (used : ∀ r₀, A.Used w'.view r₀ ↔ A.Used w.view r₀ ∧ r₀ ≠ r')
    (sound : ∀ l, TblOk w.blocksize (w.view (A.blk l)) → TblOk w.blocksize (w'.view (A.blk l)))
    (magic : ∀ l, A.Magic w'.view l ↔ A.Magic w.view l) :
    A.Held stale w' (setAt T c p (.refined r (Function.update kids i (.leaf s)))) none none := by
  have child : ∀ r₀, (kids i).refCount r₀ = if r' = r₀ then 1 else 0 := by
    intro r₀
    rw [was, refCount_refined, Finset.sum_eq_zero fun j _ => bare r₀ j, Nat.add_zero]
  have refs : ∀ r₀, refTotal A.cells (setAt T c p (.refined r (Function.update kids i (.leaf s))))
      r₀ +
      (if r' = r₀ then 1 else 0) = refTotal A.cells T r₀ := by
    intro r₀
    have moved := refTotal_setKid hc at_path i (.leaf s) r₀
    rwa [child, refCount_leaf, Nat.add_zero] at moved
  have shape := (shape_sub (h.shape c hc) at_path).2
  rw [Nat.zero_add] at shape
  apply h.recordStep kin hc at_path (fun r₀ => r₀ = r') ?_ root
  · exact fun r₀ apart known gone => kid r₀ apart gone (h.live r₀ known).recIn
  · intro j
    rw [here]
    by_cases same : i = j
    · subst same
      right
      rw [if_pos rfl, Function.update_self]
      rfl
    · left
      rw [if_neg same, Function.update_of_ne (Ne.symm same)]
      exact ⟨rfl, rfl⟩
  · intro j
    by_cases same : i = j
    · subst same
      rw [Function.update_self]
      exact fun equal => (open' equal).elim
    · rw [Function.update_of_ne (Ne.symm same)]
      exact shape j
  · intro r₀
    have once := h.once r₀
    have before := refs r₀
    omega
  · intro r₀
    have once := h.once r₀
    have before := refs r₀
    rw [Known, Known]
    by_cases equal : r' = r₀
    · rw [if_pos equal] at before
      simp [equal]
      omega
    · rw [if_neg equal, Nat.add_zero] at before
      simp [Ne.symm equal, before]
  · exact fun _ h => by cases h
  · exact fun r₀ _ => used r₀
  · exact sound
  · exact magic
  · rintro r₀ rfl
    have here : 0 < (kids i).refCount r₀ := by
      rw [child, if_pos rfl]
      decide
    have inNode := Nat.lt_of_lt_of_le here (refCount_kid_le r r₀ kids i)
    have le := Cell.weigh_sub_le (Refine.refs r₀) 0 at_path
    rw [refs_depth r₀ _ _ 0] at le
    exact Nat.lt_of_lt_of_le inNode le

theorem Held.unlinkRoot (h : A.Held stale w T none none) (kin : w.Kin w')
    {kids : Fin ALLOC_FANOUT → Tree}
    (hc : c < A.cells) (was : T c = .refined r kids) (bare : ∀ r j, (kids j).refCount r = 0)
    (root : ∀ c' < A.cells, A.rootMark w'.view c' = if c' = c then .leaf .free else A.rootMark
    w.view c')
    (kid : ∀ r₀, r₀ ≠ r → ¬ A.Root r₀.1 → RecIn w.blocksize r₀.2 →
      A.kidMark w'.view r₀ = A.kidMark w.view r₀)
    (used : ∀ r₀, ¬ A.Root r₀.1 → (A.Used w'.view r₀ ↔ A.Used w.view r₀ ∧ r₀ ≠ r))
    (sound : ∀ l, ¬ A.Root l → TblOk w.blocksize (w.view (A.blk l)) →
      TblOk w.blocksize (w'.view (A.blk l)))
    (magic : ∀ l, ¬ A.Root l → (A.Magic w'.view l ↔ A.Magic w.view l)) :
    A.Held stale w' (Function.update T c (.leaf .free)) none none := by
  have refs : ∀ r₀, refTotal A.cells (Function.update T c (.leaf .free)) r₀ +
      (if r = r₀ then 1 else 0) = refTotal A.cells T r₀ := by
    intro r₀
    have moved := refTotal_update A.cells T hc (.leaf .free) r₀
    rwa [was, refCount_refined, Finset.sum_eq_zero fun j _ => bare r₀ j, refCount_leaf,
        Nat.add_zero,
      Nat.add_zero] at moved
  apply h.step kin (fun r₀ => r₀ = r) ?_ ?_ ?_ ?_ ?_ ?_ ?_ used sound magic
  · intro c' hc' _
    rw [root c' hc']
    by_cases same : c' = c
    · subst same
      rw [if_pos rfl, Function.update_self]
      rfl
    · rw [if_neg same, Function.update_of_ne same]
      apply (h.models c' hc' (fun h => by cases h)).frame
      intro r₀ inTree
      have live := h.live r₀ (known_of_tree hc' inTree)
      apply kid r₀ ?_ live.ne_root live.recIn
      rintro rfl
      have here : 0 < (T c).refCount r₀ := was ▸ refCount_self r₀ kids
      have none := refCount_other_tree hc hc' same (h.once r₀) here
      omega
  · exact fun _ h => by cases h
  · intro r₀
    have once := h.once r₀
    have before := refs r₀
    omega
  · intro r₀
    have once := h.once r₀
    have before := refs r₀
    rw [Known, Known]
    by_cases equal : r = r₀
    · rw [if_pos equal] at before
      simp [equal]
      omega
    · rw [if_neg equal, Nat.add_zero] at before
      simp [Ne.symm equal, before]
  · exact fun _ h => by cases h
  · exact rsvd_update (by rw [was]; exact fun h => by cases h) (fun h => by cases h)
  · exact shape_update h.shape (fun h => by cases h)

end Ag

end FiveFs
