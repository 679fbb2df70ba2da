import FiveFs.Extents

/-! Lookups of neighbouring blocks: what a run or a hole says of the blocks behind its first is what
looking them up says. -/

namespace FiveFs

open Buffer Prog

/-- Lookups of `span` blocks that agree with each other. -/
structure Coherent (look : Nat → Except Err Map) (span : Nat) : Prop where
  found : ∀ rel < span, ∃ m, look rel = .ok m
  run : ∀ rel < span, ∀ blk n, look rel = .ok (.run blk n) → rel + n ≤ span ∧
    ∀ j < n, look (rel + j) = .ok (.run (blk + j) (n - j))
  hole : ∀ rel < span, ∀ n, look rel = .ok (.hole n) → rel + n ≤ span ∧ ∀ j < n,
      look (rel + j) = .ok (.hole (n - j))

namespace Coherent

variable {look : Nat → Except Err Map} {c k : Nat}

theorem free (c : Nat) : Coherent (fun rel => .ok (.hole (c - rel))) c where
  found rel _ := ⟨_, rfl⟩
  run rel _ blk n found := by cases found
  hole rel inside n found := by
    cases found
    refine ⟨by omega, fun j _ => ?_⟩
    simp only [Except.ok.injEq, Map.hole.injEq]
    omega

theorem addU64_ok {a b : Nat} (fits : a + b < 2 ^ 64) : addU64 a b = .ok (a + b) := by
  rw [addU64, if_pos (by rw [U64_MAX]; omega)]

theorem full {blocks addr : Nat} (covered : blocks ≤ c) (fits : addr + blocks ≤ 2 ^ 64) :
    Coherent (fun rel => runInChild blocks addr rel c) c := by
  have inRun : ∀ rel < blocks, runInChild blocks addr rel c = .ok
      (.run (addr + rel) (blocks - rel)) := by
    intro rel inside
    rw [runInChild, if_pos inside, addU64_ok (by omega)]
    rfl
  have behind : ∀ rel, blocks ≤ rel → runInChild blocks addr rel c = .ok (.hole (c - rel)) := by
    intro rel past
    rw [runInChild, if_neg (by omega)]
  refine ⟨fun rel _ => ?_, fun rel inside blk n found => ?_, fun rel inside n found => ?_⟩
  · by_cases inside : rel < blocks
    · exact ⟨_, inRun rel inside⟩
    · exact ⟨_, behind rel (by omega)⟩
  · by_cases early : rel < blocks
    · rw [inRun rel early] at found
      cases found
      refine ⟨by omega, fun j hj => ?_⟩
      rw [inRun (rel + j) (by omega), Nat.add_assoc, Nat.sub_sub]
    · rw [behind rel (by omega)] at found
      cases found
  · by_cases early : rel < blocks
    · rw [inRun rel early] at found
      cases found
    · rw [behind rel (by omega)] at found
      cases found
      refine ⟨by omega, fun j hj => ?_⟩
      rw [behind (rel + j) (by omega), Nat.sub_sub]

theorem children {child : Nat → Nat → Except Err Map} (some_blocks : 0 < c)
    (each : ∀ i < k, Coherent (child i) c)
    (descends : ∀ rel < k * c, look rel = child (rel / c) (rel % c)) : Coherent look (k * c) := by
  have index : ∀ rel < k * c, rel / c < k := fun rel inside =>
      Nat.div_lt_of_lt_mul (by rw [Nat.mul_comm]; exact inside)
  have part : ∀ rel j, rel < k * c → rel % c + j < c → rel + j < k * c ∧ (rel + j) / c = rel / c ∧
      (rel + j) % c = rel % c + j := by
    intro rel j inside within
    have split := Nat.div_add_mod' rel c
    have whole : (rel / c + 1) * c ≤ k * c := Nat.mul_le_mul_right _ (index rel inside)
    rw [Nat.succ_mul] at whole
    have sum : rel + j = c * (rel / c) + (rel % c + j) := by
      rw [Nat.mul_comm]
      omega
    refine ⟨by omega, ?_, ?_⟩
    · rw [sum, Nat.mul_add_div some_blocks, Nat.div_eq_of_lt within, Nat.add_zero]
    · rw [sum, Nat.mul_add_mod, Nat.mod_eq_of_lt within]
  have room : ∀ rel n, rel < k * c → rel % c + n ≤ c → rel + n ≤ k * c := by
    intro rel n inside within
    have split := Nat.div_add_mod' rel c
    have whole : (rel / c + 1) * c ≤ k * c := Nat.mul_le_mul_right _ (index rel inside)
    rw [Nat.succ_mul] at whole
    omega
  refine ⟨fun rel inside => ?_, fun rel inside blk n found => ?_, fun rel inside n found => ?_⟩
  · rw [descends rel inside]
    exact (each _ (index rel inside)).found _ (Nat.mod_lt _ some_blocks)
  · rw [descends rel inside] at found
    obtain ⟨within, next⟩ := (each _ (index rel inside)).run _ (Nat.mod_lt _ some_blocks) blk n
        found
    refine ⟨room rel n inside within, fun j hj => ?_⟩
    obtain ⟨inside', quotient, rest⟩ := part rel j inside (by omega)
    rw [descends _ inside', quotient, rest]
    exact next j hj
  · rw [descends rel inside] at found
    obtain ⟨within, next⟩ := (each _ (index rel inside)).hole _ (Nat.mod_lt _ some_blocks) n found
    refine ⟨room rel n inside within, fun j hj => ?_⟩
    obtain ⟨inside', quotient, rest⟩ := part rel j inside (by omega)
    rw [descends _ inside', quotient, rest]
    exact next j hj

end Coherent

/-- How many blocks the answer of a lookup is about. -/
def Map.len : Map → Nat
  | .hole n => n
  | .run _ n => n

theorem addU64_inv {a b : Nat} {f : Nat → Map} {m : Map} (found : (addU64 a b).map f = .ok m) :
    m = f (a + b) := by
  rw [addU64] at found
  split at found
  · cases found
    rfl
  · cases found

theorem runInChild_len {blocks addr rel c : Nat} {m : Map} (inside : rel < c)
    (found : runInChild blocks addr rel c = .ok m) : 0 < m.len := by
  rw [runInChild] at found
  split at found
  · rw [addU64_inv found, Map.len]
    omega
  · cases found
    rw [Map.len]
    omega

theorem extentLookup_len {fb next : Nat} {es : List Extent} {m : Map} (before : fb < next)
    (found : extentLookup fb es next = .ok m) : 0 < m.len := by
  induction es generalizing next with
  | nil =>
      cases found
      rw [Map.len]
      omega
  | cons e rest ih =>
      rw [extentLookup] at found
      split at found
      · rw [addU64_inv found, Map.len]
        omega
      · apply ih _ found
        split <;> omega

theorem extentLookup_run {fb blk n next : Nat} {es : List Extent}
    (found : extentLookup fb es next = .ok (.run blk n)) :
    0 < n := by
  induction es generalizing next with
  | nil => cases found
  | cons e rest ih =>
      rw [extentLookup] at found
      split at found
      · cases addU64_inv found
        omega
      · exact ih found

theorem cov_pos {level c : Nat} (covers : cov level = .ok c) : 0 < c := by
  rw [cov] at covers
  split at covers
  · cases covers
    exact Nat.pow_pos (by decide)
  · cases covers

/-- A child record: FREE, a run that its range covers, or a node as `deeper` has it. -/
def ChildFits (state : Nat) (child : Nat × Nat) (c : Nat) (deeper : Prop) : Prop :=
  state = CELL_FREE ∨ (state = CELL_FULL ∧ child.1 ≤ c ∧ child.2 + child.1 ≤ 2 ^ 64) ∨
  (state = CELL_REFINED ∧ deeper)

namespace Work

variable [Crc32c] {w : Work} {depth : Nat} {inode : Inode}

theorem nodeLookup_len {addr rel : Nat} {m : Map} (found : w.nodeLookup depth addr rel = .ok m) :
    0 < m.len := by
  induction depth generalizing addr rel with
  | zero => cases found
  | succ depth ih =>
      rw [nodeLookup] at found
      obtain ⟨buf, -, found⟩ := bind_inv found
      obtain ⟨c, covers, found⟩ := bind_inv found
      have inside := Nat.mod_lt rel (cov_pos covers)
      dsimp only at found
      split at found
      · cases found
      · split at found
        · cases found
          rw [Map.len]
          omega
        · split at found
          · exact runInChild_len inside found
          · split at found
            · exact ih found
            · cases found

theorem mapLookup_len {fb : Nat} {m : Map} (found : w.mapLookup depth inode fb = .ok m) :
    0 < m.len ∨ (U64_MAX ≤ fb ∧ m = .hole 0) := by
  rw [mapLookup] at found
  split at found
  · cases found
    exact Or.inl (by decide)
  · split at found
    · by_cases before : fb < U64_MAX
      · exact Or.inl (extentLookup_len before found)
      · cases m with
        | run blk n => exact Or.inl (extentLookup_run found)
        | hole n =>
            rcases Nat.eq_zero_or_pos n with rfl | some
            · exact Or.inr ⟨by omega, rfl⟩
            · exact Or.inl some
    · split at found
      · obtain ⟨c, covers, found⟩ := bind_inv found
        have inside := Nat.mod_lt fb (cov_pos covers)
        dsimp only at found
        split at found
        · cases found
          exact Or.inl (by decide)
        · split at found
          · cases found
            refine Or.inl ?_
            rw [Map.len]
            omega
          · split at found
            · exact Or.inl (runInChild_len inside found)
            · split at found
              · exact Or.inl (nodeLookup_len found)
              · cases found
      · cases found

/-- The node at `addr` covers `span` blocks, and the nodes below it fit. -/
def Spans (w : Work) : Nat → Nat → Nat → Prop
  | 0, _, _ => False
  | depth + 1, addr, span =>
      ∃ buf c, w.nodeRead addr = .ok buf ∧ cov (nodeLevel buf) = .ok c ∧ 0 < c ∧
      span = NODE_FANOUT * c ∧ ∀ i < NODE_FANOUT,
        ChildFits (nodeState buf i) (nodeChild buf i) c (w.Spans depth (nodeChild buf i).2 c)

/-- What a child of either kind of node is looked up as. -/
def childLookup (w : Work) (depth state : Nat) (child : Nat × Nat) (c : Nat) (bad : String)
    (rel : Nat) : Except Err Map :=
  if state = CELL_FREE then .ok (.hole (c - rel))
  else if state = CELL_FULL then runInChild child.1 child.2 rel c
  else if state = CELL_REFINED then w.nodeLookup depth child.2 rel
  else .error (.bail bad)

theorem childLookup_coherent {state c : Nat} {child : Nat × Nat} {deeper : Prop} (bad : String)
    (fits : ChildFits state child c deeper)
    (below : deeper → Coherent (fun rel => w.nodeLookup depth child.2 rel) c) :
    Coherent (w.childLookup depth state child c bad) c := by
  rcases fits with rfl | ⟨rfl, covered, short⟩ | ⟨rfl, node⟩
  · exact .free c
  · exact .full covered short
  · exact below node

theorem nodeLookup_coherent {addr span : Nat} (spans : w.Spans depth addr span) :
    Coherent (fun rel => w.nodeLookup depth addr rel) span := by
  induction depth generalizing addr span with
  | zero => exact spans.elim
  | succ depth ih =>
      obtain ⟨buf, c, read, covers, some_blocks, rfl, fits⟩ := spans
      refine .children some_blocks
        (fun i hi => childLookup_coherent (s!"bad node child state {nodeState buf i}") (fits i hi)
        fun node => ih node)
        fun rel inside => ?_
      have index : rel / c < NODE_FANOUT := Nat.div_lt_of_lt_mul
          (by rw [Nat.mul_comm]; exact inside)
      rw [nodeLookup, read]
      show (cov (nodeLevel buf) >>= _) = _
      rw [covers]
      exact if_neg (Nat.not_le.mpr index)

theorem mapLookup_coherent {c : Nat} (format : inode.format = FMT_TREE)
    (covers : cov (rootLevel inode.payload) = .ok c)
    (some_blocks : 0 < c) (fits : ∀ i < ROOT_FANOUT,
    ChildFits (rootState inode.payload i) (rootChild inode.payload i) c
      (w.Spans depth (rootChild inode.payload i).2 c)) :
    Coherent (w.mapLookup depth inode) (ROOT_FANOUT * c) := by
  refine .children some_blocks
    (fun i hi => childLookup_coherent (s!"bad root child state {rootState inode.payload i}")
    (fits i hi) nodeLookup_coherent)
    fun rel inside => ?_
  have index : rel / c < ROOT_FANOUT := Nat.div_lt_of_lt_mul (by rw [Nat.mul_comm]; exact inside)
  rw [mapLookup, if_neg (by rw [format]; decide), if_neg (by rw [format]; decide), if_pos format,
      covers]
  exact if_neg (Nat.not_le.mpr index)

theorem mapLookup_behind {c fb : Nat} (format : inode.format = FMT_TREE)
    (covers : cov (rootLevel inode.payload) = .ok c)
    (some_blocks : 0 < c) (past : ROOT_FANOUT * c ≤ fb) :
    w.mapLookup depth inode fb = .ok (.hole U64_MAX) := by
  have index : ROOT_FANOUT ≤ fb / c := (Nat.le_div_iff_mul_le some_blocks).mpr past
  rw [mapLookup, if_neg (by rw [format]; decide), if_neg (by rw [format]; decide), if_pos format,
      covers]
  exact if_pos index

end Work

/-- The extent maps the block. -/
def Extent.Maps (e : Extent) (fb : Nat) : Prop := e.fileBlock ≤ fb ∧ fb < e.fileBlock + e.blocks

instance (e : Extent) (fb : Nat) : Decidable (e.Maps fb) := inferInstanceAs (Decidable (_ ∧ _))

/-- No two extents map one block. -/
def Extent.Apart (e f : Extent) : Prop := e.fileBlock + e.blocks ≤ f.fileBlock ∨
    f.fileBlock + f.blocks ≤ e.fileBlock

section Inline

variable {es : List Extent} {fb next : Nat} {e : Extent}

theorem extentLookup_in (apart : es.Pairwise Extent.Apart) (member : e ∈ es) (maps : e.Maps fb)
    (short : e.blk + e.blocks ≤ 2 ^ 64) :
    extentLookup fb es next = .ok (.run (e.blk + (fb - e.fileBlock))
    (e.blocks - (fb - e.fileBlock))) := by
  induction es generalizing next with
  | nil => cases member
  | cons f rest ih =>
      obtain ⟨first, later⟩ := List.pairwise_cons.mp apart
      obtain ⟨low, high⟩ := maps
      rw [extentLookup]
      rcases List.mem_cons.mp member with rfl | behind
      · rw [if_pos ⟨low, high⟩, Coherent.addU64_ok (by omega)]
        rfl
      · have away := first e behind
        rw [Extent.Apart] at away
        rw [if_neg (by omega), ih later behind]

theorem extentLookup_out (none' : ∀ e ∈ es, ¬ e.Maps fb) :
    ∃ n, extentLookup fb es next = .ok (.hole (n - fb)) ∧ ∀ e ∈ es, fb < e.fileBlock →
    n ≤ e.fileBlock := by
  have scan : ∃ n, extentLookup fb es next = .ok (.hole (n - fb)) ∧ n ≤ next ∧
      ∀ e ∈ es, fb < e.fileBlock → n ≤ e.fileBlock := by
    induction es generalizing next with
    | nil => exact ⟨next, rfl, Nat.le_refl _, fun e member => absurd member List.not_mem_nil⟩
    | cons f rest ih =>
        obtain ⟨n, found, low, starts⟩ := @ih (if f.fileBlock > fb then min next
            f.fileBlock else next)
          fun e member => none' e (List.mem_cons_of_mem _ member)
        have passes : ¬ (fb ≥ f.fileBlock ∧ fb < f.fileBlock + f.blocks) :=
            none' f List.mem_cons_self
        refine ⟨n, by rw [extentLookup, if_neg passes, found], ?_, fun e member later => ?_⟩
        · split at low <;> omega
        · rcases List.mem_cons.mp member with rfl | behind
          · rw [if_pos later] at low
            omega
          · exact starts e behind later
  obtain ⟨n, found, -, starts⟩ := scan
  exact ⟨n, found, starts⟩

end Inline

end FiveFs
