import FiveFs.Backing

/-! The files of an AG: `map_ensure` on them in any order gives no block to two of them. -/

namespace FiveFs

open Buffer Prog Refine Radix

namespace Filemap

variable {y : Filemap} {f f' b : Nat}

theorem uses_of_maps (maps : y.Maps f b) : 0 < y.uses b := by
  cases y with
  | empty => exact maps.elim
  | inline es =>
      obtain ⟨e, member, low, high, rfl⟩ := maps
      exact usesInline_of_mem member (by omega) (by omega)
  | tree l kids => exact Radix.uses_pos maps

theorem inline_unique {es : List Extent} {e e' : Extent} (once : usesInline es b ≤ 1)
    (member : e ∈ es) (member' : e' ∈ es)
    (inside : e.blk ≤ b ∧ b < e.blk + e.blocks) (inside' : e'.blk ≤ b ∧ b < e'.blk + e'.blocks) :
    e = e' := by
  rw [usesInline, List.countP_eq_length_filter] at once
  have found : e ∈ es.filter fun e => decide (e.blk ≤ b ∧ b < e.blk + e.blocks) :=
    List.mem_filter.mpr ⟨member, decide_eq_true inside⟩
  have found' : e' ∈ es.filter fun e => decide (e.blk ≤ b ∧ b < e.blk + e.blocks) :=
    List.mem_filter.mpr ⟨member', decide_eq_true inside'⟩
  generalize es.filter _ = few at once found found'
  rcases few with _ | ⟨x, _ | ⟨x', rest⟩⟩
  · exact absurd found List.not_mem_nil
  · rw [List.mem_singleton.mp found, List.mem_singleton.mp found']
  · simp at once

theorem Maps.injective (once : y.uses b ≤ 1) (maps : y.Maps f b) (maps' : y.Maps f' b) :
    f = f' := by
  cases y with
  | empty => exact maps.elim
  | inline es =>
      obtain ⟨e, member, low, high, here⟩ := maps
      obtain ⟨e', member', low', high', here'⟩ := maps'
      obtain rfl := inline_unique once member member' ⟨by omega, by omega⟩ ⟨by omega, by omega⟩
      omega
  | tree l kids => exact Radix.Maps.injective once maps maps'

theorem Maps.not_node (once : y.uses b ≤ 1) (maps : y.Maps f b) : ¬ y.HasNode b := by
  cases y with
  | empty => exact id
  | inline es => exact id
  | tree l kids => exact Radix.Maps.not_node maps once

end Filemap

section Frame

variable [Crc32c] {Held Held' : Work → (Nat → Prop) → Prop} {taken taken' : Nat → Prop}
    {w w' : Work} {inode : Inode} {y : Filemap}

theorem Filed.frame (filed : Filed Held taken w inode y)
    (same : ∀ b, y.HasNode b → w'.nodeRead b = w.nodeRead b)
    (held : Held' w' taken') (owned : ∀ b, 0 < y.uses b → taken' b) :
    Filed Held' taken' w' inode y := by
  cases filed with
  | empty format _ => exact .empty format held
  | inline format parse sorted listed =>
      exact .inline format parse sorted ⟨listed.sound, listed.apart, listed.once, owned, held⟩
  | tree format grove =>
      obtain ⟨slots, shows_, stored⟩ := grove.shown
      exact .tree format ⟨grove.low, ⟨slots, shows_,
          fun i hi => (stored i hi).of_nodes fun b node => same b ⟨i, hi, node⟩⟩,
        grove.fits, grove.once, owned, fun r here => (by cases here), held⟩

end Frame

/-- The store, and the inodes of the files. -/
structure Shelf where
  w : Work
  file : Nat → Inode

namespace Shelf

section

variable [Crc32c]

/-- A call of `map_ensure` on a file. -/
inductive Step (A : Ag) (depth : Nat) : Shelf → Shelf → Prop
  | ensure {s : Shelf} {k fblock n : Nat} {runs : List (Nat × Nat × Nat × Bool)} {inode : Inode}
      {w' : Work} :
      fblock + n ≤ 2 ^ 53 → ((Work.allocator A.num).strict.mapEnsure depth (s.file k) fblock n
      s.w).1 ≠ .error Allocator.spoiled →
      (Work.allocator A.num).mapEnsure depth (s.file k) fblock n s.w = (.ok (runs, inode), w') →
      Step A depth s ⟨w', Function.update s.file k inode⟩

/-- What the files have, and what others had before them. -/
def Owned (old : Nat → Prop) (y : Nat → Filemap) (b : Nat) : Prop := old b ∨ ∃ k, 0 < (y k).uses b

/-- The mappings are filed, and have no block in common. -/
structure Shelved (A : Ag) (stale old : Nat → Prop) (base : Work) (s : Shelf) (y : Nat → Filemap) :
    Prop where
  filed : ∀ k, Filed (Keeping A stale base) (Owned old y) s.w (s.file k) (y k)
  apart : ∀ k j b, k ≠ j → 0 < (y k).uses b → (y j).uses b = 0
  free : ∀ k b, 0 < (y k).uses b → ¬ old b

variable {A : Ag} {stale old : Nat → Prop} {base : Work} {s s' : Shelf} {y : Nat → Filemap}
    {depth : Nat}

theorem Shelved.blockOf (shelved : Shelved A stale old base s y) (deep : 10 < depth) (k f b : Nat) :
    s.w.blockOf depth (s.file k) f = some b ↔ (y k).Maps f b := (shelved.filed k).blockOf deep f b

theorem Shelved.sole (shelved : Shelved A stale old base s y) (deep : 10 < depth) {k j f g b : Nat}
    (maps : s.w.blockOf depth (s.file k) f = some b)
    (maps' : s.w.blockOf depth (s.file j) g = some b) : k = j ∧ f = g := by
  rw [shelved.blockOf deep] at maps maps'
  by_cases same : k = j
  · subst same
    exact ⟨rfl, maps.injective ((shelved.filed k).once b) maps'⟩
  · have none := shelved.apart k j b same (Filemap.uses_of_maps maps)
    have some := Filemap.uses_of_maps maps'
    omega

omit [Crc32c] in
theorem owned_update {k : Nat} {y' : Filemap} (same : ∀ b, Owned old y b → y'.uses b = (y k).uses b)
    (b : Nat) :
    Owned old (Function.update y k y') b ↔ Owned old y b ∨ 0 < y'.uses b := by
  constructor
  · rintro (before | ⟨j, used⟩)
    · exact Or.inl (Or.inl before)
    · by_cases here : j = k
      · rw [here, Function.update_self] at used
        exact Or.inr used
      · rw [Function.update_of_ne here] at used
        exact Or.inl (Or.inr ⟨j, used⟩)
  · rintro ((before | ⟨j, used⟩) | used)
    · exact Or.inl before
    · by_cases here : j = k
      · refine Or.inr ⟨k, ?_⟩
        rw [Function.update_self, same b (Or.inr ⟨j, used⟩), ← here]
        exact used
      · exact Or.inr ⟨j, by rwa [Function.update_of_ne here]⟩
    · exact Or.inr ⟨k, by rwa [Function.update_self]⟩

omit [Crc32c] in
theorem apart_update {k : Nat} {y' : Filemap} (same : ∀ b, Owned old y b → y'.uses b = (y k).uses b)
    (apart : ∀ i j b, i ≠ j → 0 < (y i).uses b → (y j).uses b = 0) (i j b : Nat) (other : i ≠ j)
    (used : 0 < (Function.update y k y' i).uses b) : (Function.update y k y' j).uses b = 0 := by
  by_cases first : i = k
  · rw [first, Function.update_self] at used
    rw [Function.update_of_ne fun second => other (first.trans second.symm)]
    by_contra some
    rw [same b (Or.inr ⟨j, Nat.pos_of_ne_zero some⟩)] at used
    exact some (apart k j b (first ▸ other) used)
  · rw [Function.update_of_ne first] at used
    by_cases second : j = k
    · rw [second, Function.update_self, same b (Or.inr ⟨i, used⟩)]
      exact apart i k b first used
    · rw [Function.update_of_ne second]
      exact apart i j b other used

theorem Shelved.grow (shelved : Shelved A stale old base s y) (whole : ∀ c < A.cells, ¬ A.Split c)
    {k : Nat} {inode : Inode}
    {y' : Filemap} {w' : Work} (filed : Filed (Keeping A stale base)
    (fun b => Owned old y b ∨ 0 < y'.uses b) w' inode y')
    (same : ∀ b, Owned old y b → y'.uses b = (y k).uses b)
    (untouched : Untouched (fun b => Owned old y b ∧ ¬ (y k).HasNode b) s.w w') :
    Shelved A stale old base ⟨w', Function.update s.file k inode⟩ (Function.update y k y') := by
  have grants : Grants _ _ (Keeping A stale base) := (strict_ledger whole).toGrants
  have owned := owned_update same
  refine ⟨fun j => ?_, apart_update same shelved.apart, fun j b used before => ?_⟩
  · show Filed (Keeping A stale base) _ w' (Function.update s.file k inode j)
        (Function.update y k y' j)
    by_cases here : j = k
    · subst here
      rw [Function.update_self, Function.update_self]
      exact filed.mono grants (fun b new => (owned b).mp new) fun b used =>
          (owned b).mpr (Or.inr used)
    · rw [Function.update_of_ne here, Function.update_of_ne here]
      refine (shelved.filed j).frame (fun b node => ?_)
          (grants.mono filed.held fun b new => (owned b).mp new)
        fun b used => (owned b).mpr (Or.inl (Or.inr ⟨j, used⟩))
      have used := Filemap.uses_of_node node
      refine untouched.nodes b ⟨Or.inr ⟨j, used⟩, fun own => ?_⟩
      have some := Filemap.uses_of_node own
      have none := shelved.apart j k b here used
      omega
  · by_cases here : j = k
    · rw [here, Function.update_self, same b (Or.inl before)] at used
      exact shelved.free k b used before
    · rw [Function.update_of_ne here] at used
      exact shelved.free j b used before

theorem Shelved.step (shelved : Shelved A stale old base s y) (whole : ∀ c < A.cells, ¬ A.Split c)
    (deep : 10 < depth)
    (step : Step A depth s s') : (∃ y', Shelved A stale old base s' y') ∧
      (∀ k f b, s.w.blockOf depth (s.file k) f = some b →
      s'.w.blockOf depth (s'.file k) f = some b) ∧
      Untouched old s.w s'.w := by
  cases step with
  | @ensure k fblock n runs inode w' short clean run =>
      have filled := map_ensure_allocated whole deep short (shelved.filed k) clean
      rw [wp, run] at filled
      obtain ⟨mapped, y', filed, same, untouched⟩ := filled
      dsimp only at mapped filed untouched
      have more := shelved.grow whole filed same untouched
      refine ⟨⟨_, more⟩, fun j f b maps => ?_, untouched.mono fun b before => ⟨Or.inl before, ?_⟩⟩
      · by_cases here : j = k
        · subst here
          show w'.blockOf depth (Function.update s.file j inode j) f = some b
          rw [Function.update_self]
          exact mapped.kept f b maps
        · rw [shelved.blockOf deep] at maps
          rw [more.blockOf deep, Function.update_of_ne here]
          exact maps
      · exact fun node => shelved.free k b (Filemap.uses_of_node node) before

theorem Shelved.run (whole : ∀ c < A.cells, ¬ A.Split c) (deep : 10 < depth)
    (run : Relation.ReflTransGen (Step A depth) s s')
    (shelved : Shelved A stale old base s y) : (∃ y', Shelved A stale old base s' y') ∧
      (∀ k f b, s.w.blockOf depth (s.file k) f = some b →
      s'.w.blockOf depth (s'.file k) f = some b) ∧
      Untouched old s.w s'.w := by
  induction run with
  | refl => exact ⟨⟨y, shelved⟩, fun _ _ _ maps => maps, .refl old _⟩
  | tail _ step ih =>
      obtain ⟨⟨y₁, before⟩, kept, untouched⟩ := ih
      obtain ⟨after, kept', untouched'⟩ := before.step whole deep step
      exact ⟨after, fun k f b maps => kept' k f b (kept k f b maps), untouched.trans untouched'⟩

/-- In any order of calls on any files of an AG: no block is mapped twice, none that was in use
before is mapped, and what is mapped stays mapped to the same block. -/
theorem files_share_nothing {w : Work} {hdr : AgHeader} {T : Nat → Tree} {file : Nat → Inode}
    (whole : ∀ c < A.cells, ¬ A.Split c)
    (deep : 10 < depth) (sound : A.Sound stale w hdr T) (backed : ∀ b, old b → Backed A T b)
    (fresh : ∀ k, (file k).format = FMT_EMPTY) (run : Relation.ReflTransGen (Step A depth) ⟨w, file⟩
    s) :
    (∀ k j f g b, s.w.blockOf depth (s.file k) f = some b →
    s.w.blockOf depth (s.file j) g = some b → k = j ∧ f = g) ∧
      (∀ k f b, s.w.blockOf depth (s.file k) f = some b → ¬ old b) ∧
      (∀ k, s.w.WellFormed depth (s.file k)) ∧
      Untouched old w s.w ∧
      (∃ hdr' T', A.Sound stale s.w hdr' T' ∧ ∀ k f b, s.w.blockOf depth (s.file k) f = some b →
      Backed A T' b) ∧
      ∀ s', Relation.ReflTransGen (Step A depth) s s' → ∀ k f b,
      s.w.blockOf depth (s.file k) f = some b →
        s'.w.blockOf depth (s'.file k) f = some b := by
  have none : ∀ b, Owned old (fun _ => .empty) b → old b := by
    rintro b (before | ⟨_, used⟩)
    · exact before
    · exact absurd used (Nat.lt_irrefl 0)
  have start : Shelved A stale old w ⟨w, file⟩ fun _ => .empty :=
    ⟨fun k => .empty (Or.inl (fresh k)) ⟨.refl, .refl w, hdr, T, sound,
    fun b owned => backed b (none b owned)⟩,
      fun _ _ _ _ _ => rfl, fun _ _ used => absurd used (Nat.lt_irrefl 0)⟩
  obtain ⟨⟨y, shelved⟩, _, untouched⟩ := start.run whole deep run
  have used : ∀ k f b, s.w.blockOf depth (s.file k) f = some b → 0 < (y k).uses b :=
      fun k f b maps =>
    Filemap.uses_of_maps ((shelved.blockOf deep k f b).mp maps)
  obtain ⟨_, _, hdr', T', sound', backed'⟩ := (shelved.filed 0).held
  exact ⟨fun k j f g b maps maps' => shelved.sole deep maps maps',
      fun k f b maps => shelved.free k b (used k f b maps),
    fun k => (shelved.filed k).wellFormed deep, untouched,
    ⟨hdr', T', sound', fun k f b maps => backed' b (Or.inr ⟨k, used k f b maps⟩)⟩,
    fun s' later => (shelved.run whole deep later).2.1⟩

end

/-- After the cells in use are given back: two new files of 256 blocks. -/
theorem files_share_nothing_edge :
    let crc := castagnoli
    ∃ w₀ w₁ inode₁ w₂ inode₂, @Work.freeExtent crc (edgeAg.blk 256) 512
    (@edgeWork crc) = (.ok (), w₀) ∧
      @Step crc edgeAg 11 ⟨w₀, fun _ => {}⟩ ⟨w₁, Function.update (fun _ => {}) 0 inode₁⟩ ∧
      @Step crc edgeAg 11 ⟨w₁, Function.update (fun _ => {}) 0 inode₁⟩
        ⟨w₂, Function.update (Function.update (fun _ => {}) 0 inode₁) 1 inode₂⟩ ∧
      (∃ b b', @Work.blockOf crc w₂ 11 inode₁ 0 = some b ∧
          @Work.blockOf crc w₂ 11 inode₂ 0 = some b') ∧
      ∀ f g b, @Work.blockOf crc w₂ 11 inode₁ f = some b →
          @Work.blockOf crc w₂ 11 inode₂ g ≠ some b := by
  intro crc
  -- the store is a variable, so that no step evaluates the program on it
  have calls : ∀ w hdr T, edgeAg.Sound (fun _ => False) w hdr T →
      (∀ c, 1 ≤ c → c < 4 → T c = .leaf .free) →
      ∃ w₁ inode₁ w₂ inode₂, Step edgeAg 11 ⟨w, fun _ => {}⟩
      ⟨w₁, Function.update (fun _ => {}) 0 inode₁⟩ ∧
        Step edgeAg 11 ⟨w₁, Function.update (fun _ => {}) 0 inode₁⟩
          ⟨w₂, Function.update (Function.update (fun _ => {}) 0 inode₁) 1 inode₂⟩ ∧
        (∃ b b', w₂.blockOf 11 inode₁ 0 = some b ∧ w₂.blockOf 11 inode₂ 0 = some b') ∧
        ∀ f g b, w₂.blockOf 11 inode₁ f = some b → w₂.blockOf 11 inode₂ g ≠ some b := by
    intro w hdr T sound free
    obtain ⟨c, inside, _, w₁, hdr₁, granted₁, sound₁⟩ :=
        allocExtent_cell sound ⟨1, by decide, free 1 (by decide) (by decide)⟩
    obtain ⟨clean₁, runs₁, inode₁, run₁, format₁, parse₁⟩ := mapEnsure_first {} 11 Tenure.edge_whole
      (by decide) sound rfl (by decide) (by decide) (edge_fits inside).1 granted₁
    obtain ⟨c', inside', _, w₂, hdr₂, granted₂, _⟩ := allocExtent_cell sound₁ (edge_left free)
    obtain ⟨clean₂, runs₂, inode₂, run₂, format₂, parse₂⟩ := mapEnsure_first {} 11 Tenure.edge_whole
      (by decide) sound₁ rfl (by decide) (by decide) (edge_fits inside').1 granted₂
    have step₁ : Step edgeAg 11 ⟨w, fun _ => {}⟩ ⟨w₁, Function.update (fun _ => {}) 0 inode₁⟩ :=
      .ensure (s := ⟨w, fun _ => {}⟩) (k := 0) (by decide) clean₁ run₁
    have step₂ : Step edgeAg 11 ⟨w₁, Function.update (fun _ => {}) 0 inode₁⟩
        ⟨w₂, Function.update (Function.update (fun _ => {}) 0 inode₁) 1 inode₂⟩ :=
      .ensure (s := ⟨w₁, Function.update (fun _ => {}) 0 inode₁⟩) (k := 1) (by decide) clean₂ run₂
    have backed : ∀ b, (fun _ : Nat => False) b → Backed edgeAg T b := fun _ => False.elim
    obtain ⟨sole, _⟩ := files_share_nothing Tenure.edge_whole (by decide) sound backed
        (fun _ => rfl) (.tail (.single step₁) step₂)
    refine ⟨w₁, inode₁, w₂, inode₂, step₁, step₂,
        ⟨_, _, blockOf_single 11 format₁ parse₁ (by decide) (edge_fits inside).1,
      blockOf_single 11 format₂ parse₂ (by decide) (edge_fits inside').1⟩,
      fun f g b maps maps' => ?_⟩
    exact absurd (sole 0 1 f g b maps maps').1 (by decide)
  obtain ⟨w₀, hdr₀, T₀, freed, sound₀, free⟩ := edge_freed (@edge_valid castagnoli).sound
  obtain ⟨w₁, inode₁, w₂, inode₂, rest⟩ := calls w₀ hdr₀ T₀ sound₀ free
  exact ⟨w₀, w₁, inode₁, w₂, inode₂, freed, rest⟩

end Shelf

end FiveFs
