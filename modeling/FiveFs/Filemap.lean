import FiveFs.Inline

/-! The mapping of a file as a whole: inline extents that go to a tree, roots that grow, and
`map_ensure`. -/

namespace FiveFs

open Buffer Prog Radix

theorem Ensured.again {taken taken' : Nat → Prop} {R R' M M₁ M' : Nat → Nat → Prop}
    {pos mid limit : Nat} {fresh fresh₁ fresh' : List (Nat × Nat)}
    (adds : ∀ f b, M₁ f b ↔ M f b ∨ R f b) (held : ∀ b, taken b → taken' b) (high : mid ≤ limit)
    (h : Ensured taken M M₁ R pos mid fresh fresh₁)
    (h' : Ensured taken' M₁ M' R' pos limit fresh₁ fresh') :
    Ensured taken M M' (fun f b => R f b ∨ R' f b) pos limit fresh fresh' where
  new f b either := by
    rcases either with first | second
    · obtain ⟨start, stop, rest⟩ := h.new f b first
      exact ⟨start, by omega, rest⟩
    · obtain ⟨start, stop, free, hole⟩ := h'.new f b second
      exact ⟨start, stop, fun inside => free (held b inside),
          fun b' old => hole b' ((adds f b').mpr (Or.inl old))⟩
  full := h'.full
  listed f := by rw [h'.listed, h.listed, or_assoc, exists_or]

/-- What an inode maps. -/
inductive Filemap
  | empty
  | inline (es : List Extent)
  | tree (l : Nat) (kids : Nat → Cover)

namespace Filemap

/-- File block `f` is mapped to `b`. -/
def Maps : Filemap → Nat → Nat → Prop
  | empty, _, _ => False
  | inline es, f, b => MapsInline es f b
  | tree l kids, f, b => Radix.Maps NODE_FANOUT ROOT_FANOUT kids l 0 f b

/-- How often the mapping has block `b`, data blocks and nodes. -/
def uses : Filemap → Nat → Nat
  | empty, _ => 0
  | inline es, b => usesInline es b
  | tree _ kids, b => Radix.uses NODE_FANOUT ROOT_FANOUT kids b

/-- One of the nodes of the mapping is at `b`. -/
def HasNode : Filemap → Nat → Prop
  | empty, _ => False
  | inline _, _ => False
  | tree _ kids, b => Radix.Nodes NODE_FANOUT ROOT_FANOUT kids b

theorem uses_of_node {y : Filemap} {b : Nat} (node : y.HasNode b) : 0 < y.uses b := by
  cases y with
  | empty => exact node.elim
  | inline es => exact node.elim
  | tree l kids => exact node.uses_pos

end Filemap

theorem maps_inline_perm {es es' : List Extent} (same : es.Perm es') :
    (Filemap.inline es).Maps = (Filemap.inline es').Maps :=
  funext fun _ => funext fun _ => propext (mapsInline_perm same)

theorem uses_inline_perm {es es' : List Extent} (same : es.Perm es') :
    (Filemap.inline es).uses = (Filemap.inline es').uses :=
  funext (usesInline_perm same)

theorem listed_nil {Held : Work → (Nat → Prop) → Prop} {taken : Nat → Prop} {w : Work}
    (held : Held w taken) :
    Listed Held taken w [] :=
  ⟨fun _ member => absurd member List.not_mem_nil, .nil, fun _ => Nat.zero_le 1,
      fun _ used => absurd used (Nat.lt_irrefl 0), held⟩

theorem extentsParse_zeros : extentsParse zeros = [] := by
  have none : getU32 zeros (0 + 16) = 0 := getBE_zeros _ _
  show extentsParseFrom zeros (5 + 1) 0 = []
  rw [extentsParseFrom, if_pos none]

/-- The mapping of `inode` in `w`: it is well formed, has no block twice, and the allocator keeps
its blocks with the rest of `taken`. -/
inductive Filed [Crc32c] (Held : Work → (Nat → Prop) → Prop) (taken : Nat → Prop) (w : Work)
    (inode : Inode) : Filemap → Prop
  | empty : inode.format = FMT_EMPTY ∨ inode.format = FMT_EMBED → Held w taken →
      Filed Held taken w inode .empty
  | inline {es : List Extent} : inode.format = FMT_EXTENT → extentsParse inode.payload = es →
      es.Pairwise (fun e e' => e.fileBlock ≤ e'.fileBlock) → Listed Held taken w es →
      Filed Held taken w inode (.inline es)
  | tree {l : Nat} {kids : Nat → Cover} : inode.format = FMT_TREE →
      Grove Held taken w (.root inode.payload) ROOT_FANOUT l kids →
      Filed Held taken w inode (.tree l kids)

/-- The mapping `y` becomes `y'`, which maps the pairs of `R` too; of `taken`, no more blocks are
nodes of it, and none but these is touched. -/
structure Extended [Crc32c] (Held : Work → (Nat → Prop) → Prop) (taken : Nat → Prop) (w : Work)
    (y : Filemap)
    (R : Nat → Nat → Prop) (w' : Work) (inode' : Inode) (y' : Filemap) : Prop where
  filed : Filed Held (fun b => taken b ∨ 0 < y'.uses b) w' inode' y'
  adds : Adds taken R y.Maps y'.Maps y.uses y'.uses
  frame : Untouched (fun b => taken b ∧ ¬ y.HasNode b) w w'
  nodes : ∀ b, taken b → y'.HasNode b → y.HasNode b

/-- A call changes the format and the payload of an inode, and nothing else of it. -/
def Remapped (inode inode' : Inode) : Prop :=
  inode' = { inode with format := inode'.format, payload := inode'.payload }

theorem Remapped.trans {inode inode' inode'' : Inode} (h : Remapped inode inode')
    (h' : Remapped inode' inode'') :
    Remapped inode inode'' := by
  rw [Remapped] at *
  rw [h', h]

theorem Remapped.of_payload {inode inode' : Inode}
    (same : inode' = { inode with payload := inode'.payload }) :
    Remapped inode inode' := by
  have format : inode'.format = inode.format := by rw [same]
  rw [Remapped, format]
  exact same

section Levels

theorem levelFor_run (needed : Nat) (small : needed ≤ ROOT_FANOUT * NODE_FANOUT ^ 9) :
    ∀ fuel level, level ≤ 9 → 9 - level < fuel →
      ∃ l, Allocator.levelFor needed fuel level = .ok l ∧ l ≤ 9 ∧
      needed ≤ ROOT_FANOUT * NODE_FANOUT ^ l := by
  intro fuel
  induction fuel with
  | zero => exact fun level _ enough => absurd enough (Nat.not_lt_zero _)
  | succ fuel ih =>
      intro level low enough
      rw [Allocator.levelFor, cov_run (by omega)]
      show ∃ l, (if ROOT_FANOUT * NODE_FANOUT ^ level < needed then _ else _) = _ ∧ _
      by_cases more : ROOT_FANOUT * NODE_FANOUT ^ level < needed
      · rw [if_pos more]
        have below : level ≠ 9 := by
          rintro rfl
          exact absurd more (Nat.not_lt.mpr small)
        exact ih (level + 1) (by omega) (by omega)
      · rw [if_neg more]
        exact ⟨level, rfl, low, Nat.not_lt.mp more⟩

theorem le_extentsEnd {es : List Extent} {e : Extent} (member : e ∈ es) :
    e.fileBlock + e.blocks ≤ Allocator.extentsEnd es := by
  have scan : ∀ (xs : List Nat) a, a ≤ xs.foldl max a ∧ ∀ x ∈ xs, x ≤ xs.foldl max a := by
    intro xs
    induction xs with
    | nil => exact fun a => ⟨Nat.le_refl a, fun x member => absurd member List.not_mem_nil⟩
    | cons y rest ih =>
        intro a
        obtain ⟨start, all⟩ := ih (max a y)
        refine ⟨Nat.le_trans (Nat.le_max_left a y) start, fun x member => ?_⟩
        rcases List.mem_cons.mp member with rfl | later
        · exact Nat.le_trans (Nat.le_max_right a x) start
        · exact all x later
  rw [Allocator.extentsEnd,
      if_neg fun none => by rw [none] at member; exact absurd member List.not_mem_nil]
  exact (scan _ 0).2 _ (List.mem_map_of_mem (f := fun e => e.fileBlock + e.blocks) member)

theorem extentsEnd_le {es : List Extent} {bound : Nat} (some : 0 < bound)
    (short : ∀ e ∈ es, e.fileBlock + e.blocks ≤ bound) :
    Allocator.extentsEnd es ≤ bound := by
  have scan : ∀ (xs : List Nat) a, a ≤ bound → (∀ x ∈ xs, x ≤ bound) → xs.foldl max a ≤ bound := by
    intro xs
    induction xs with
    | nil => exact fun a start _ => start
    | cons y rest ih =>
        intro a start all
        exact ih (max a y) (Nat.max_le.mpr ⟨start, all y List.mem_cons_self⟩) fun x member =>
            all x (List.mem_cons_of_mem _ member)
  rw [Allocator.extentsEnd]
  split
  · exact some
  · apply scan _ 0 (Nat.zero_le _)
    intro x member
    obtain ⟨e, inside, rfl⟩ := List.mem_map.mp member
    exact short e inside

end Levels

section Conversion

variable [Crc32c] {Held : Work → (Nat → Prop) → Prop} {A : Allocator} {Refuses : Err → Work → Prop}
    {taken extra : Nat → Prop}
  {w : Work} {depth l : Nat}

theorem grove_init (held : Held w taken) (low : l ≤ 10) :
    Grove Held taken w (.root (rootInit l)) ROOT_FANOUT l fun _ => .hole where
  low := low
  shown := ⟨_, ⟨rfl, rootLevel_init (by omega), fun i hi => rootSlot_init l hi⟩, fun _ _ => rfl⟩
  fits _ _ := trivial
  once b := by rw [uses_holes]; exact Nat.zero_le 1
  owned b used := by rw [uses_holes] at used; exact absurd used (Nat.lt_irrefl 0)
  ours r here := by cases here
  held := held

theorem insertRun_wp (grants : Grants A Refuses Held) {inode : Inode} {kids : Nat → Cover}
    {f blk len : Nat} (deep : l < depth)
    (grove : Grove (Besides Held extra) taken w (.root inode.payload) ROOT_FANOUT l kids)
    (spare : Spare extra taken (Maps NODE_FANOUT ROOT_FANOUT kids l 0) f blk len)
    (inside : f + len ≤ ROOT_FANOUT * NODE_FANOUT ^ l) :
    wp (A.insertRun depth inode f blk len) (fun inode' w' =>
    inode' = { inode with payload := inode'.payload } ∧
      Inserts Held extra taken w (.root inode.payload) ROOT_FANOUT l 0 kids f blk len
      (.root inode'.payload) w')
      Refuses w := by
  obtain ⟨slots, ⟨_, level, _⟩, _⟩ := grove.shown
  rw [Allocator.insertRun, wp_bind, wp_ofExcept, level, cov_run grove.low]
  dsimp only
  rw [wp_bind]
  refine wp_mono (insertLoop_wp grants (s := 0) (insertInChild_wp grants depth deep) (Nat.zero_le _)
      (by omega) len
    (Nat.le_refl _) (Nat.zero_le _) grove spare) ?_ fun _ _ => id
  rintro parent w' ⟨kids', changed, only⟩
  cases parent with
  | root p => exact ⟨rfl, kids', changed, only⟩
  | node r => exact absurd ((changed.kind r).mp rfl) (by rintro ⟨⟩)

/-- What recording the extents in a tree leaves. -/
def InsertsAll (Held : Work → (Nat → Prop) → Prop) (extra taken : Nat → Prop) (w : Work) (p : Bytes)
    (l : Nat)
    (kids : Nat → Cover) (es : List Extent) (p' : Bytes) (w' : Work) : Prop :=
  ∃ kids', Changed (Besides Held extra) extra taken w (.root p) ROOT_FANOUT l 0 kids
      (MapsInline es) w' (.root p') kids' ∧
    ∀ b, extra b → ¬ taken b → 0 < uses NODE_FANOUT ROOT_FANOUT kids' b → 0 < usesInline es b

theorem insertRuns_wp (grants : Grants A Refuses Held) (deep : l < depth) {es : List Extent} :
    ∀ {w : Work} {taken : Nat → Prop} {inode : Inode} {kids : Nat → Cover},
      Grove (Besides Held extra) taken w (.root inode.payload) ROOT_FANOUT l kids →
      (∀ e ∈ es, RunFits e.blocks e.blk ∧ e.fileBlock + e.blocks ≤ ROOT_FANOUT * NODE_FANOUT ^ l) →
      es.Pairwise Extent.Apart →
      (∀ b, usesInline es b ≤ 1) → (∀ b, 0 < usesInline es b → extra b ∧ ¬ taken b) →
      (∀ e ∈ es, ∀ f b, e.fileBlock ≤ f → f < e.fileBlock + e.blocks →
      ¬ Maps NODE_FANOUT ROOT_FANOUT kids l 0 f b) →
      wp (A.insertRuns depth es inode) (fun inode' w' =>
      inode' = { inode with payload := inode'.payload } ∧
        InsertsAll Held extra taken w inode.payload l kids es inode'.payload w') Refuses w := by
  induction es with
  | nil =>
      intro w taken inode kids grove _ _ _ _ _
      refine ⟨rfl, kids, (Changed.refl (grants.besides extra) grove 0).congr
          fun f b => by simp [MapsInline], ?_⟩
      exact fun b _ free used => absurd (grove.owned b used) free
  | cons e rest ih =>
      intro w taken inode kids grove sound apart once free unmapped
      obtain ⟨first, later⟩ := List.pairwise_cons.mp apart
      obtain ⟨fits, inside⟩ := sound e List.mem_cons_self
      have own : ∀ b, e.blk ≤ b → b < e.blk + e.blocks → 0 < usesInline (e :: rest) b :=
        fun b low high => usesInline_of_mem List.mem_cons_self low high
      have apart' : ∀ b, 0 < usesInline rest b → ¬ (e.blk ≤ b ∧ b < e.blk + e.blocks) := by
        intro b used inside
        have twice := once b
        rw [usesInline_cons, if_pos inside] at twice
        omega
      have grows : ∀ b, 0 < usesInline rest b → 0 < usesInline (e :: rest) b := by
        intro b used
        rw [usesInline_cons]
        omega
      rw [Allocator.insertRuns, wp_bind]
      refine wp_mono (insertRun_wp grants deep grove
        ⟨fits, fun b low high => free b (own b low high),
        fun f b => unmapped e List.mem_cons_self f b⟩ inside) ?_ fun _ _ => id
      rintro inode₁ w₁ ⟨same, kids₁, changed, only⟩
      refine wp_mono (ih changed.grove (fun e' member => sound e' (List.mem_cons_of_mem _ member))
          later (fun b => ?_)
        (fun b used => ?_) fun e' member f b low high maps => ?_) ?_ fun _ _ => id
      · have twice := once b
        rw [usesInline_cons] at twice
        omega
      · obtain ⟨kept, loose⟩ := free b (grows b used)
        exact ⟨kept, not_or.mpr ⟨loose, fun taken => apart' b used (only b kept loose taken)⟩⟩
      · rcases (changed.adds.maps f b).mp maps with old | new
        · exact unmapped e' (List.mem_cons_of_mem _ member) f b low high old
        · have away := first e' member
          simp only [Extent.Apart] at away
          obtain ⟨low', high', _⟩ := new
          omega
      · rintro inode₂ w₂ ⟨same', kids₂, changed', only'⟩
        refine ⟨?_, kids₂, (changed.trans (grants.besides extra) grove changed').congr fun f b =>
            ?_, fun b kept loose used => ?_⟩
        · rw [same', same]
        · simp [MapsInline]
        · by_cases before : 0 < uses NODE_FANOUT ROOT_FANOUT kids₁ b
          · obtain ⟨low, high⟩ := only b kept loose before
            exact own b low high
          · exact grows b (only' b kept (not_or.mpr ⟨loose, before⟩) used)

theorem toTree_wp (grants : Grants A Refuses Held) {es : List Extent} (deep : 9 < depth)
    (listed : Listed Held taken w es)
    (inode : Inode) :
    wp (A.toTree depth inode es) (fun inode' w' => Remapped inode inode' ∧ ∃ l kids,
      Extended Held taken w (.inline es) (fun _ _ => False) w' inode' (.tree l kids)) Refuses
      w := by
  have reach : 2 ^ 53 ≤ ROOT_FANOUT * NODE_FANOUT ^ 9 := by decide
  obtain ⟨l, run, low, covers⟩ := levelFor_run (Allocator.extentsEnd es)
    (Nat.le_trans (extentsEnd_le (by decide) fun e member => (listed.sound e member).2.2) reach) 256
    0 (by omega) (by omega)
  -- the blocks of the extents are kept besides
  have start : Besides Held (fun b => 0 < usesInline es b) w fun b => taken b ∧
      usesInline es b = 0 :=
    grants.mono listed.held fun b => Or.rec And.left (listed.owned b)
  rw [Allocator.toTree, wp_bind, wp_ofExcept, run]
  refine wp_mono (insertRuns_wp (l := l) grants (by omega)
    (grove_init start (by omega)) (fun e member =>
    ⟨(listed.sound e member).2.1, Nat.le_trans (le_extentsEnd member) covers⟩)
    listed.apart listed.once (fun b used => ⟨used, fun both => by omega⟩) fun e _ f b _ _ maps =>
    not_maps_holes maps) ?_
    fun _ _ => id
  rintro inode' w' ⟨same, kids, changed, only⟩
  have maps : ∀ f b, Maps NODE_FANOUT ROOT_FANOUT kids l 0 f b ↔ MapsInline es f b := by
    intro f b
    rw [changed.adds.maps]
    exact ⟨Or.rec (fun none => (not_maps_holes none).elim) id, Or.inr⟩
  have grove : Grove Held (fun b => taken b ∨ 0 < uses NODE_FANOUT ROOT_FANOUT kids b) w'
      (.root inode'.payload) ROOT_FANOUT l
      kids := by
    refine { changed.grove with
      owned := fun b => Or.inr
      ours := fun r here => by cases here
      held := ?_ }
    refine grants.mono changed.grove.held fun b => ?_
    rintro (old | used)
    · by_cases listed : usesInline es b = 0
      · exact Or.inl (Or.inl ⟨old, listed⟩)
      · exact Or.inr (Nat.pos_of_ne_zero listed)
    · exact Or.inl (Or.inr used)
  have either : ∀ b, taken b → (taken b ∧ usesInline es b = 0) ∨ 0 < usesInline es b :=
    fun b old => (Nat.eq_zero_or_pos _).imp (And.intro old) id
  have format : inode'.format = FMT_TREE := by rw [same]
  refine ⟨by rw [Remapped, format]; exact same, l, kids, .tree format grove,
    ⟨fun f b => (maps f b).trans (or_false _).symm.to_iff, fun b held => ?_,
    fun b _ => changed.grove.once b⟩, ?_, fun b old node => ?_⟩
  · show uses NODE_FANOUT ROOT_FANOUT kids b = usesInline es b
    by_cases mapped : 0 < usesInline es b
    · obtain ⟨e, member, low, high⟩ := mem_of_usesInline mapped
      have used : 0 < uses NODE_FANOUT ROOT_FANOUT kids b :=
        Radix.uses_pos ((maps (e.fileBlock + (b - e.blk)) b).mpr
        ⟨e, member, by omega, by omega, by omega⟩)
      have once := changed.grove.once b
      have once' := listed.once b
      omega
    · have unused : usesInline es b = 0 := by omega
      rw [changed.adds.same b ⟨held, unused⟩, uses_holes, unused]
  · refine changed.frame.mono fun b rest => ⟨either b rest.1, ?_, by rintro ⟨⟩⟩
    exact not_nodes_holes
  · exact not_nodes_holes (changed.nodes b (either b old) node)

end Conversion

section Growth

variable [Crc32c] {Held : Work → (Nat → Prop) → Prop} {A : Allocator} {Refuses : Err → Work → Prop}
    {taken : Nat → Prop} {w w' w'' : Work}
  {inode inode' inode'' : Inode} {y y' y'' : Filemap} {R R' : Nat → Nat → Prop} {depth l : Nat}
  {kids : Nat → Cover}

theorem Filed.owned (filed : Filed Held taken w inode y) (b : Nat) (used : 0 < y.uses b) :
    taken b := by
  cases filed with
  | empty => exact absurd used (Nat.lt_irrefl 0)
  | inline _ _ _ listed => exact listed.owned b used
  | tree _ grove => exact grove.owned b used

theorem Filed.once (filed : Filed Held taken w inode y) (b : Nat) : y.uses b ≤ 1 := by
  cases filed with
  | empty => exact Nat.zero_le 1
  | inline _ _ _ listed => exact listed.once b
  | tree _ grove => exact grove.once b

theorem Filed.held (filed : Filed Held taken w inode y) : Held w taken := by
  cases filed with
  | empty _ held => exact held
  | inline _ _ _ listed => exact listed.held
  | tree _ grove => exact grove.held

theorem Filed.keep {Held' : Work → (Nat → Prop) → Prop} (filed : Filed Held taken w inode y)
    (held : Held' w taken) :
    Filed Held' taken w inode y := by
  cases filed with
  | empty format _ => exact .empty format held
  | inline format parse sorted listed =>
      exact .inline format parse sorted { listed with held := held }
  | tree format grove => exact .tree format { grove with held := held }

theorem Filed.mono (grants : Grants A Refuses Held) (filed : Filed Held taken w inode y)
    {taken' : Nat → Prop}
    (less : ∀ b, taken' b → taken b) (owned : ∀ b, 0 < y.uses b → taken' b) :
    Filed Held taken' w inode y := by
  cases filed with
  | empty format held => exact .empty format (grants.mono held less)
  | inline format parse sorted listed =>
      exact .inline format parse sorted { listed with
        owned := owned
        held := grants.mono listed.held less }
  | tree format grove =>
      exact .tree format (grove.mono grants less owned fun r here => by cases here)

theorem Extended.refl (grants : Grants A Refuses Held) (filed : Filed Held taken w inode y) :
    Extended Held taken w y (fun _ _ => False) w inode y where
  filed := filed.mono grants (fun b either => either.elim id (filed.owned b)) fun _ => Or.inr
  adds := Adds.refl filed.owned
  frame := Untouched.refl _ w
  nodes _ _ := id

theorem Extended.trans (grants : Grants A Refuses Held) (h : Extended Held taken w y R w' inode' y')
    (h' : Extended Held (fun b => taken b ∨ 0 < y'.uses b) w' y' R' w'' inode'' y'') :
    Extended Held taken w y (fun f b => R f b ∨ R' f b) w'' inode'' y'' where
  filed := h'.filed.mono grants (fun b => Or.imp_left Or.inl) fun _ => Or.inr
  adds := h.adds.trans h'.adds
  frame := by
    refine h.frame.trans (h'.frame.mono ?_)
    rintro b ⟨old, other⟩
    exact ⟨Or.inl old, fun node => other (h.nodes b old node)⟩
  nodes b old node := h.nodes b old (h'.nodes b (Or.inl old) node)

theorem Extended.congr {S : Nat → Nat → Prop} (h : Extended Held taken w y R w' inode' y')
    (pairs : ∀ f b, S f b ↔ R f b) :
    Extended Held taken w y S w' inode' y' :=
  { h with adds := h.adds.congr (fun _ => Iff.rfl) pairs }

theorem Stored.hole {x : Cover} {m : Nat × Nat × Nat} (stored : Stored w x l m)
    (free : m.1 = CELL_FREE) : x = .hole := by
  cases x with
  | hole => rfl
  | run n a =>
      have state : m.1 = CELL_FULL := congrArg Prod.fst stored
      rw [free] at state
      exact absurd state (by decide)
  | node r sub =>
      have state : m.1 = CELL_REFINED := stored.1
      rw [free] at state
      exact absurd state (by decide)

theorem raised_extended (grants : Grants A Refuses Held)
    (grove : Grove Held taken w (.root inode.payload) ROOT_FANOUT l kids)
    (format : inode.format = FMT_TREE) (low : l < 10) {r : Nat} (place : r < 2 ^ 64)
    (free : ¬ taken r)
    (held : Held w' fun b => taken b ∨ r = b) (untouched : Untouched taken w w')
    (node : Stored w' (.node r (widen ROOT_FANOUT kids)) (l + 1) (CELL_REFINED, 0, r)) :
    Extended Held taken w (.tree l kids) (fun _ _ => False) w'
      { inode with payload := rootChildSet (rootStateSet (rootInit (l + 1)) 0 CELL_REFINED) 0 0 r }
      (.tree (l + 1) (raised ROOT_FANOUT kids r)) := by
  have adds : Adds taken (fun _ _ => False) (Maps NODE_FANOUT ROOT_FANOUT kids l 0)
      (Maps NODE_FANOUT ROOT_FANOUT (raised ROOT_FANOUT kids r) (l + 1) 0)
      (uses NODE_FANOUT ROOT_FANOUT kids) (uses NODE_FANOUT ROOT_FANOUT
      (raised ROOT_FANOUT kids r)) :=
    Adds.raise free grove.owned (by decide) (by decide)
  have nodes : ∀ b, taken b → Nodes NODE_FANOUT ROOT_FANOUT (raised ROOT_FANOUT kids r) b →
      Nodes NODE_FANOUT ROOT_FANOUT kids b := fun b old node =>
    node.of_raised.resolve_left fun fresh => free (fresh ▸ old)
  have shown : ∀ i < ROOT_FANOUT, rootSlot (rootChildSet
      (rootStateSet (rootInit (l + 1)) 0 CELL_REFINED) 0 0 r) i =
      if i = 0 then (CELL_REFINED, 0, r) else (CELL_FREE, 0, 0) := by
    intro i hi
    rw [rootSlot_set _ (by decide) hi (by decide) (by decide) place, rootSlot_init _ hi]
  refine ⟨.tree format ⟨by omega, ⟨_, ⟨rfl, (rootLevel_set _).trans (rootLevel_init (by omega)),
      shown⟩, fun i hi => ?_⟩,
    fun i hi => ?_, adds.uses_le grove.once, fun b => Or.inr, fun r here => (by cases here), ?_⟩,
    adds, untouched.mono fun b => And.left, nodes⟩
  · rw [raised]
    by_cases first : i = 0
    · rw [first, Function.update_self, if_pos rfl]
      exact node
    · rw [Function.update_of_ne first, if_neg first]
      rfl
  · rw [raised]
    by_cases first : i = 0
    · rw [first, Function.update_self]
      refine ⟨Nat.succ_pos l, fun j _ => ?_⟩
      rw [widen]
      split
      · exact grove.fits j ‹_›
      · trivial
    · rw [Function.update_of_ne first]
      trivial
  · refine grants.mono held fun b => Or.rec Or.inl fun used => ?_
    rw [Filemap.uses, uses_raised (by decide) (by decide)] at used
    by_cases here : r = b
    · exact Or.inr here
    · rw [if_neg here, Nat.zero_add] at used
      exact Or.inl (grove.owned b used)

theorem emptied_extended (grants : Grants A Refuses Held) (format : inode.format = FMT_TREE)
    {l' : Nat} (low : l' ≤ 10)
    (holes : ∀ i < ROOT_FANOUT, kids i = .hole) (held : Held w' taken)
    (untouched : Untouched taken w w') :
    Extended Held taken w (.tree l kids) (fun _ _ => False) w' { inode with payload := rootInit l' }
      (.tree l' fun _ => .hole) := by
  have unused : ∀ b, uses NODE_FANOUT ROOT_FANOUT kids b = 0 := fun b =>
    Finset.sum_eq_zero fun i hi => by rw [holes i (Finset.mem_range.mp hi)]; rfl
  refine ⟨.tree format (grove_init (grants.mono held fun b => ?_) low),
      ⟨fun f b => ?_, fun b _ => ?_, fun b _ => ?_⟩,
    untouched.mono fun b => And.left, fun b _ node => (not_nodes_holes node).elim⟩
  · rintro (inside | used)
    · exact inside
    · exact absurd used (by rw [Filemap.uses, uses_holes]; exact Nat.lt_irrefl 0)
  · refine ⟨fun maps => absurd maps not_maps_holes, Or.rec ?_ False.elim⟩
    rintro ⟨i, hi, maps⟩
    rw [holes i hi] at maps
    exact maps.elim
  · exact (uses_holes _ _ b).trans (unused b).symm
  · exact Nat.le_trans (Nat.le_of_eq (uses_holes _ _ b)) (Nat.zero_le 1)

theorem rootGrow_wp (ledger : Ledger A Refuses Held)
    (grove : Grove Held taken w (.root inode.payload) ROOT_FANOUT l kids)
    (format : inode.format = FMT_TREE) (low : l < 10) :
    wp (A.rootGrow inode) (fun inode' w' => inode' = { inode with payload := inode'.payload } ∧
    ∃ kids',
      Extended Held taken w (.tree l kids) (fun _ _ => False) w' inode' (.tree (l + 1) kids'))
      Refuses w := by
  have grants := ledger.toGrants
  have root : ROOT_FANOUT = 6 := rfl
  have fan : NODE_FANOUT = 64 := rfl
  obtain ⟨slots, ⟨_, level, same⟩, stored⟩ := grove.shown
  rw [Allocator.rootGrow, level, wp_bind]
  refine wp_mono (nodeAlloc_wp grants grove.held (by omega)) ?_ fun _ _ => id
  rintro r w₁ ⟨place, free, held, untouched, ⟨buf, read, nodeLevel_, clear⟩, single⟩
  obtain ⟨used, isUsed⟩ : ∃ used, used = (List.range ROOT_FANOUT).filter fun i =>
      rootState inode.payload i != CELL_FREE := ⟨_, rfl⟩
  have member : ∀ i, i ∈ used ↔ i < ROOT_FANOUT ∧ rootState inode.payload i ≠ CELL_FREE := by
    intro i
    rw [isUsed, List.mem_filter, List.mem_range, bne_iff_ne]
  have hole : ∀ i < ROOT_FANOUT, i ∉ used → kids i = .hole := by
    intro i hi outside
    have child := stored i hi
    rw [← same i hi] at child
    refine child.hole ?_
    by_contra some
    exact outside ((member i).mpr ⟨hi, some⟩)
  obtain ⟨magic, level', slots'⟩ := nodeSlot_copied inode.payload
      (fun i inside => ((member i).mp inside).1) buf
  obtain ⟨data, run, magic', buf', read', alike⟩ :=
    Work.nodeWrite_run (grants.large held) (magic.trans (magic_of_read read)) r
  obtain ⟨held', kept⟩ := grants.write held (Or.inr rfl) magic'
  have untouched' := untouched.trans (untouched_put taken free w₁ data)
  rw [wp_bind, wp_run (Work.nodeGet_run read)]
  dsimp only
  rw [← isUsed, wp_bind, wp_run run, wp_ite]
  by_cases some : used ≠ []
  · have node : Stored (w₁.put r data) (.node r (widen ROOT_FANOUT kids)) (l + 1)
        (CELL_REFINED, 0, r) := by
      refine ⟨rfl, rfl, buf', read', (alike.level.trans level').trans nodeLevel_, fun i hi => ?_⟩
      rw [alike.slots i hi, slots' i hi, widen]
      by_cases inside : i < ROOT_FANOUT
      · rw [if_pos inside]
        by_cases filled : i ∈ used
        · rw [if_pos filled, same i inside]
          exact (stored i inside).congr fun b used =>
            untouched'.nodes b (grove.owned b (Nat.lt_of_lt_of_le used (uses_kid_le inside b)))
        · rw [if_neg filled, hole i inside filled, clear i hi]
          rfl
      · rw [if_neg inside, if_neg fun filled => inside ((member i).mp filled).1, clear i hi]
        rfl
    rw [if_pos some, wp_pure]
    exact ⟨rfl, _, raised_extended grants grove format low place free held' untouched' node⟩
  · have none : used = [] := not_not.mp some
    rw [if_neg some, wp_bind]
    refine wp_mono (ledger.release held' (Or.inr rfl) (kept r (Or.inr rfl) single)) ?_ fun _ _ => id
    rintro _ w₂ ⟨held₂, untouched₂⟩
    rw [wp_pure]
    have left : ∀ b, taken b → (taken b ∨ r = b) ∧ b ≠ r :=
        fun b inside => ⟨Or.inl inside, fun same => free (same ▸ inside)⟩
    exact ⟨rfl, _, emptied_extended grants format (by omega)
      (fun i hi => hole i hi (by rw [none]; exact List.not_mem_nil)) (grants.mono held₂ left)
      (untouched'.trans (untouched₂.mono left))⟩

theorem growLoop_wp (ledger : Ledger A Refuses Held) {needed : Nat}
    (small : needed ≤ ROOT_FANOUT * NODE_FANOUT ^ 9) :
    ∀ fuel {w taken inode l kids}, 10 - l < fuel →
    Grove Held taken w (.root inode.payload) ROOT_FANOUT l kids →
      inode.format = FMT_TREE →
      wp (A.growLoop needed fuel inode) (fun inode' w' =>
      inode' = { inode with payload := inode'.payload } ∧ ∃ l' kids',
        Extended Held taken w (.tree l kids) (fun _ _ => False) w' inode' (.tree l' kids') ∧
          needed ≤ ROOT_FANOUT * NODE_FANOUT ^ l') Refuses w := by
  intro fuel
  induction fuel with
  | zero => exact fun enough => absurd enough (Nat.not_lt_zero _)
  | succ fuel ih =>
      intro w taken inode l kids enough grove format
      obtain ⟨slots, ⟨_, level, _⟩, _⟩ := grove.shown
      rw [Allocator.growLoop, wp_bind, wp_ofExcept, level, cov_run grove.low]
      dsimp only
      rw [wp_ite]
      by_cases more : needed > ROOT_FANOUT * NODE_FANOUT ^ l
      · have low : l < 9 := by
          by_contra high
          have whole : NODE_FANOUT ^ 9 ≤ NODE_FANOUT ^ l :=
              Nat.pow_le_pow_right (by decide) (Nat.not_lt.mp high)
          have room := Nat.mul_le_mul_left ROOT_FANOUT whole
          omega
        rw [if_pos more, wp_bind]
        refine wp_mono (rootGrow_wp ledger grove format (by omega)) ?_ fun _ _ => id
        rintro inode₁ w₁ ⟨same, kids₁, extended⟩
        have format₁ : inode₁.format = FMT_TREE := by rw [same, format]
        cases extended.filed with
        | tree _ grove₁ =>
            refine wp_mono (ih (by omega) grove₁ format₁) ?_ fun _ _ => id
            rintro inode₂ w₂ ⟨same₂, l₂, kids₂, extended₂, covers⟩
            refine ⟨by rw [same₂, same], l₂, kids₂, ?_, covers⟩
            exact (extended.trans ledger.toGrants extended₂).congr fun f b => by rw [or_false]
      · rw [if_neg more, wp_pure]
        exact ⟨rfl, l, kids, Extended.refl ledger.toGrants (.tree format grove), Nat.not_lt.mp more⟩

theorem Changed.extended {kids' : Nat → Cover} {p : Bytes} (format : inode.format = FMT_TREE)
    (changed : Changed Held (fun _ => False) taken w (.root inode.payload) ROOT_FANOUT l 0 kids R
      w' (.root p) kids') :
    Extended Held taken w (.tree l kids) R w' { inode with payload := p } (.tree l kids') where
  filed := .tree format changed.grove
  adds := changed.adds
  frame := changed.frame.mono fun _ both => ⟨Or.inl both.1, both.2, by rintro ⟨⟩⟩
  nodes b old := changed.nodes b (Or.inl old)

theorem treeEnsure_wp (ledger : Ledger A Refuses Held) {fblock n : Nat} {fresh : List (Nat × Nat)}
    (deep : 10 < depth)
    (short : fblock + n ≤ 2 ^ 53) (format : inode.format = FMT_TREE)
    (grove : Grove Held taken w (.root inode.payload) ROOT_FANOUT l kids) :
    wp (A.treeEnsure depth inode fblock n fresh)
    (fun out w' => out.1 = { inode with payload := out.1.payload } ∧
      ∃ l' kids' R, Extended Held taken w (.tree l kids) R w' out.1 (.tree l' kids') ∧
        Ensured taken (Filemap.tree l kids).Maps (Filemap.tree l' kids').Maps R fblock (fblock + n)
        fresh out.2)
      Refuses w := by
  have grants := ledger.toGrants
  have reach : 2 ^ 53 ≤ ROOT_FANOUT * NODE_FANOUT ^ 9 := by decide
  rw [Allocator.treeEnsure, wp_bind]
  refine wp_mono (growLoop_wp ledger (Nat.le_trans short reach) 256 (by omega) grove format) ?_
      fun _ _ => id
  rintro inode₁ w₁ ⟨same, l₁, kids₁, extended, covers⟩
  have format₁ : inode₁.format = FMT_TREE := by rw [same, format]
  cases extended.filed with
  | tree _ grove₁ =>
      obtain ⟨slots, ⟨_, level, _⟩, _⟩ := grove₁.shown
      have low := grove₁.low
      dsimp only
      rw [wp_bind, wp_ofExcept, level, cov_run low]
      dsimp only
      rw [wp_bind]
      refine wp_mono (ensureLoop_wp grants (s := 0) (childEnsure_wp grants depth (by omega))
          (by omega) n (by omega)
        (Nat.zero_le _) (Nat.le_add_right _ _) grove₁) ?_ fun _ _ => id
      rintro ⟨parent, fresh'⟩ w₂ ⟨kids₂, R, changed, ensured⟩
      cases parent with
      | node r => exact absurd ((changed.kind r).mp rfl) (by rintro ⟨⟩)
      | root p =>
          have extended₂ := extended.trans grants (changed.extended format₁)
          refine ⟨by rw [same], l₁, kids₂, _, extended₂, ?_⟩
          exact Ensured.trans extended.adds.maps changed.adds.maps (fun _ => Or.inl) (Nat.le_refl _)
              (Nat.le_add_right _ _)
            (Ensured.start _ _ _ _ _) ensured

theorem store_run {es : List Extent} (listed : Listed Held taken w es)
    (short : es.length ≤ MAX_INLINE_EXTENTS)
    (format : inode.format = FMT_EXTENT) : ∃ p, extentsStore
    (es.mergeSort fun a b => decide (a.fileBlock ≤ b.fileBlock)) = .ok p ∧
      Filed Held taken w { inode with payload := p }
      (.inline (es.mergeSort fun a b => decide (a.fileBlock ≤ b.fileBlock))) := by
  have same := List.mergeSort_perm es fun a b => decide (a.fileBlock ≤ b.fileBlock)
  have sound : ∀ e ∈ es.mergeSort fun a b => decide (a.fileBlock ≤ b.fileBlock), 0 < e.blocks ∧
      RunFits e.blocks e.blk ∧
      e.fileBlock + e.blocks ≤ 2 ^ 53 := fun e member => listed.sound e (same.mem_iff.mp member)
  obtain ⟨p, run, parse⟩ := extentsParse_extentsStore
    (fun e member => ⟨by have := (sound e member).2.2; omega,
    (sound e member).2.1.1, by have := (sound e member).2.1.2; omega⟩)
    (fun e member => (sound e member).1) (by rwa [List.length_mergeSort])
  refine ⟨p, run, .inline format ((extentsParse_clip p).symm.trans parse) ?_
      (listed.perm same.symm)⟩
  refine (List.pairwise_mergeSort ?_ ?_ es).imp of_decide_eq_true
  · intro a b c first second
    exact decide_eq_true (Nat.le_trans (of_decide_eq_true first) (of_decide_eq_true second))
  · intro a b
    rcases Nat.le_total a.fileBlock b.fileBlock with less | more
    · simp [less]
    · simp [more]

theorem extentEnsure_wp (grants : Grants A Refuses Held) {fblock n : Nat} {es : List Extent}
    (deep : 10 < depth)
    (short : fblock + n ≤ 2 ^ 53) (format : inode.format = FMT_EXTENT)
    (parse : extentsParse inode.payload = es)
    (listed : Listed Held taken w es) :
    wp (A.extentEnsure depth inode fblock n) (fun out w' => Remapped inode out.1 ∧ ∃ y' R mid,
      Extended Held taken w (.inline es) R w' out.1 y' ∧ fblock ≤ mid ∧ mid ≤ fblock + n ∧
        (out.1.format ≠ FMT_TREE → mid = fblock + n) ∧
        Ensured taken (Filemap.inline es).Maps y'.Maps R fblock mid [] out.2) Refuses w := by
  rw [Allocator.extentEnsure, parse, wp_bind]
  refine wp_mono (extentLoop_wp grants short n (by omega) listed) ?_ fun _ _ => id
  rintro ⟨es₁, fresh, fragmented⟩ w₁ ⟨R, mid, swept⟩
  have listed₁ := swept.listed
  have low := swept.low
  have high := swept.high
  rw [Nat.min_eq_left (Nat.le_add_right _ _)] at low
  have ensured := swept.ensured
  rw [Nat.min_eq_left (Nat.le_add_right _ _)] at ensured
  dsimp only at listed₁ ensured ⊢
  rw [wp_ite]
  by_cases tree : fragmented = true ∨ es₁.length > MAX_INLINE_EXTENTS
  · rw [if_pos tree, wp_bind]
    refine wp_mono (toTree_wp grants (by omega) listed₁ inode) ?_ fun _ _ => id
    rintro inode₁ w₂ ⟨remapped, l, kids, extended⟩
    have format₁ : inode₁.format = FMT_TREE := by
      cases extended.filed with
      | tree format _ => exact format
    rw [wp_pure]
    have maps : ∀ f b, (Filemap.tree l kids).Maps f b ↔ MapsInline es₁ f b := fun f b =>
      (extended.adds.maps f b).trans (or_false _).to_iff
    refine ⟨remapped, _, _, mid, ⟨extended.filed.mono grants (fun b => Or.imp_left Or.inl) fun _ =>
        Or.inr,
      (swept.adds.trans extended.adds).congr (fun _ => Iff.rfl) fun f b => (or_false _).to_iff.symm,
      ?_, fun b old => extended.nodes b (Or.inl old)⟩, low, high,
      fun other => absurd format₁ other, ?_⟩
    · exact (swept.frame.mono fun b => And.left).trans
        (extended.frame.mono fun b left => ⟨Or.inl left.1, left.2⟩)
    · exact { ensured with full := fun f start stop => (ensured.full f start stop).imp fun b =>
          (maps f b).mpr }
  · obtain ⟨whole, few⟩ := not_or.mp tree
    have same := List.mergeSort_perm es₁ fun a b => decide (a.fileBlock ≤ b.fileBlock)
    obtain ⟨p, run, filed⟩ := store_run listed₁ (Nat.not_lt.mp few) format
    rw [if_neg tree, wp_bind, wp_ofResult, run]
    refine ⟨rfl, .inline (es₁.mergeSort fun a b => decide (a.fileBlock ≤ b.fileBlock)), R, mid,
      ⟨?_, ?_, swept.frame.mono fun _ => And.left, fun _ _ => id⟩, low, high,
      fun _ => swept.whole (by simpa using whole), ?_⟩
    · rw [uses_inline_perm same]
      exact filed
    · rw [uses_inline_perm same, maps_inline_perm same]
      exact swept.adds
    · rw [maps_inline_perm same]
      exact ensured

/-- Blocks for the range: they are in the mapping as it is after the call, and nothing else changed.
-/
def Ranged (Held : Work → (Nat → Prop) → Prop) (taken : Nat → Prop) (w : Work) (inode : Inode)
    (y : Filemap) (fblock n : Nat)
    (out : Inode × List (Nat × Nat)) (w' : Work) : Prop :=
  Remapped inode out.1 ∧ ∃ y' R, Extended Held taken w y R w' out.1 y' ∧
    Ensured taken y.Maps y'.Maps R fblock (fblock + n) [] out.2

theorem inlineHalf_wp (ledger : Ledger A Refuses Held) {fblock n : Nat} {es : List Extent}
    (deep : 10 < depth)
    (short : fblock + n ≤ 2 ^ 53) (format : inode.format = FMT_EXTENT)
    (parse : extentsParse inode.payload = es)
    (listed : Listed Held taken w es) :
    wp (do
      let (inode, fresh) ← A.extentEnsure depth inode fblock n
      if inode.format = FMT_TREE then A.treeEnsure depth inode fblock n fresh
      else return (inode, fresh))
      (Ranged Held taken w inode (.inline es) fblock n) Refuses w := by
  have grants := ledger.toGrants
  rw [wp_bind]
  refine wp_mono (extentEnsure_wp grants deep short format parse listed) ?_ fun _ _ => id
  rintro ⟨inode₁, fresh⟩ w₁ ⟨remapped, y₁, R, mid, extended, low, high, whole, ensured⟩
  dsimp only at remapped extended whole ensured ⊢
  rw [wp_ite]
  by_cases tree : inode₁.format = FMT_TREE
  · rw [if_pos tree]
    cases extended.filed with
    | empty other => exact absurd other (by rw [tree]; decide)
    | inline other => exact absurd other (by rw [tree]; decide)
    | tree _ grove =>
        refine wp_mono (treeEnsure_wp ledger deep short tree grove) ?_ fun _ _ => id
        rintro ⟨inode₂, fresh₂⟩ w₂ ⟨same, l₂, kids₂, R₂, extended₂, ensured₂⟩
        exact ⟨remapped.trans (.of_payload same), _, _, extended.trans grants extended₂,
          ensured.again extended.adds.maps (fun _ => Or.inl) high ensured₂⟩
  · obtain rfl := whole tree
    rw [if_neg tree]
    exact ⟨remapped, y₁, R, extended, ensured⟩

theorem mapRange_wp (ledger : Ledger A Refuses Held) {fblock n : Nat} (deep : 10 < depth)
    (short : fblock + n ≤ 2 ^ 53)
    (filed : Filed Held taken w inode y) :
    wp (A.mapRange depth inode fblock n) (Ranged Held taken w inode y fblock n) Refuses w := by
  rw [Allocator.mapRange, wp_ite]
  cases filed with
  | tree format grove =>
      rw [if_pos format]
      refine wp_mono (treeEnsure_wp ledger deep short format grove) ?_ fun _ _ => id
      rintro out w' ⟨same, l', kids', R, extended, ensured⟩
      exact ⟨.of_payload same, _, R, extended, ensured⟩
  | inline format parse sorted listed =>
      rw [if_neg (by rw [format]; decide)]
      dsimp only
      rw [if_pos format]
      exact inlineHalf_wp ledger deep short format parse listed
  | empty format held =>
      have other : inode.format ≠ FMT_TREE ∧ inode.format ≠ FMT_EXTENT := by
        rcases format with empty | embed
        · rw [empty]; decide
        · rw [embed]; decide
      rw [if_neg other.1]
      dsimp only
      rw [if_neg other.2]
      refine wp_mono (inlineHalf_wp ledger deep short rfl extentsParse_zeros (listed_nil held)) ?_
          fun _ _ => id
      rintro out w' ⟨remapped, y', R, extended, ensured⟩
      have maps : (Filemap.inline []).Maps = Filemap.empty.Maps := by
        funext f b
        simp [Filemap.Maps, MapsInline]
      have emptied : Remapped inode { inode with format := FMT_EXTENT, payload := zeros } := rfl
      exact ⟨emptied.trans remapped, y', R,
          ⟨extended.filed, maps ▸ extended.adds, extended.frame, extended.nodes⟩,
          maps ▸ ensured⟩

end Growth

end FiveFs
