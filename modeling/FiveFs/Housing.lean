import FiveFs.Hashing
import FiveFs.Returns
import FiveFs.Shelf

/-! A directory in the file space of an AG: the calls for its blocks, over the mapping of its inode
and the allocator, do to the directory what those of `Dir` do. -/

namespace FiveFs

open Buffer Prog Radix

namespace Work

variable [Crc32c]

def dirBlockAddr (depth : Nat) (inode : Inode) (fb : Nat) : Prog Work Nat := do
  let w ← get
  match ← ofExcept (w.mapLookup depth inode fb) with
  | .run blk _ => pure blk
  | .hole _ => bail s!"directory block {fb} is a hole"

def dirBlockRead (depth : Nat) (inode : Inode) (fb : Nat) : Prog Work Bytes := do
  let w ← get
  match ← ofExcept (w.mapLookup depth inode fb) with
  | .run blk _ => txnRead blk
  | .hole _ => bail s!"directory block {fb} is a hole"

def dirBlockWrite (blk : Nat) (image : Bytes) : Prog Work Unit := txnWrite blk image

def dirBlockEnsure (ag depth : Nat) (inode : Inode) (fb : Nat) : Prog Work (Nat × Inode) := do
  let (runs, inode) ← (allocator ag).mapEnsure depth inode fb 1
  match runs[0]? with
  | some run => return (run.2.1, inode)
  | none => panicWith "index out of bounds"

end Work

/-- The inodes differ in the mapping of their blocks at most. -/
structure SameButMapping (inode inode' : Inode) : Prop where
  rest : inode' = { inode with
    format := inode'.format, payload := inode'.payload, nblocks := inode'.nblocks }
  mapped : HashFormat inode'.format ↔ HashFormat inode.format
  other : ¬ HashFormat inode.format → inode' = inode

/-- The directory `d` is in the store, in blocks of the AG that are in use. -/
structure Housed [Crc32c] (A : Ag) (stale : Nat → Prop) (depth : Nat) (taken : Nat → Prop)
    (w : Work) (inode : Inode) (d : Dir) : Prop where
  filed : ∃ y, Filed (fun w taken => Keeping A stale w w taken) taken w inode y
  blocks : ∀ fb, d.blocks fb = (w.blockOf depth inode fb).map w.view
  inode : SameButMapping inode d.inode

section Calls

variable [Crc32c] {A : Ag} {stale taken : Nat → Prop} {w w' : Work} {inode : Inode} {d : Dir}
    {y : Filemap} {depth fb b : Nat}

omit [Crc32c] in
theorem SameButMapping.refl (inode : Inode) : SameButMapping inode inode :=
  ⟨rfl, Iff.rfl, fun _ => rfl⟩

omit [Crc32c] in
theorem SameButMapping.remap {inode' i : Inode} (same : SameButMapping inode i)
    (remapped : Remapped inode inode') (format : Nat) (payload : Bytes) (nblocks : Nat) :
    { i with format, payload, nblocks } = { inode' with format, payload, nblocks } := by
  have left := congrArg (fun i : Inode => { i with format, payload, nblocks }) same.rest
  have right := congrArg (fun i : Inode => { i with format, payload, nblocks }) remapped
  exact left.trans right.symm

/-- A directory without blocks. -/
theorem housed_start {hdr : AgHeader} {T : Nat → Tree} (sound : A.Sound stale w hdr T)
    (backed : ∀ b, taken b → Backed A T b)
    (format : inode.format = FMT_EMPTY ∨ inode.format = FMT_EMBED) :
    Housed A stale depth taken w inode ⟨inode, fun _ => none⟩ := by
  refine ⟨⟨.empty, .empty format ⟨.refl, .refl w, hdr, T, sound, backed⟩⟩, fun fb => ?_, .refl _⟩
  rw [Work.blockOf, Work.mapLookup, if_pos format]
  rfl

theorem Filed.data_mapped (filed : Filed (fun w taken => Keeping A stale w w taken) taken w inode y)
    (maps : y.Maps fb b) : ∃ hdr T, A.Sound stale w hdr T ∧ Backed A T b := by
  obtain ⟨_, _, hdr, T, sound, backed⟩ := filed.held
  exact ⟨hdr, T, sound, backed b (filed.owned b (Filemap.uses_of_maps maps))⟩

theorem Housed.hole (housed : Housed A stale depth taken w inode d) (deep : 10 < depth)
    (short : fb < 2 ^ 53) (none : w.blockOf depth inode fb = none) :
    ∃ n, w.mapLookup depth inode fb = .ok (.hole n) := by
  obtain ⟨y, filed⟩ := housed.filed
  obtain ⟨m, found⟩ := (filed.wellFormed deep).sound.found fb short
  rw [Work.blockOf, found] at none
  cases m with
  | hole n => exact ⟨n, found⟩
  | run blk n => cases none

/-- The block that the file has at `fb` is the block `fb` of the directory. -/
theorem Housed.addr (housed : Housed A stale depth taken w inode d) (deep : 10 < depth)
    (short : fb < 2 ^ 53) :
    (∃ blk, w.blockOf depth inode fb = some blk ∧
      Work.dirBlockAddr depth inode fb w = (.ok blk, w) ∧ Dir.dirBlockAddr fb d = (.ok fb, d)) ∨
    ∃ m, Work.dirBlockAddr depth inode fb w = (.error (.bail m), w) ∧
      Dir.dirBlockAddr fb d = (.error (.bail m), d) := by
  have blocks := housed.blocks fb
  cases here : w.blockOf depth inode fb with
  | some blk =>
      left
      obtain ⟨n, found⟩ := Work.blockOf_eq_some.mp here
      rw [here, Option.map_some] at blocks
      refine ⟨blk, rfl, ?_, ?_⟩
      · rw [Work.dirBlockAddr, bind_ok _ _ (get_run (s := w)), found]
        rfl
      · rw [Dir.dirBlockAddr, bind_ok _ _ (get_run (s := d)), blocks]
        rfl
  | none =>
      right
      obtain ⟨n, found⟩ := housed.hole deep short here
      rw [here, Option.map_none] at blocks
      refine ⟨s!"directory block {fb} is a hole", ?_, ?_⟩
      · rw [Work.dirBlockAddr, bind_ok _ _ (get_run (s := w)), found]
        rfl
      · rw [Dir.dirBlockAddr, bind_ok _ _ (get_run (s := d)), blocks]
        rfl

theorem Housed.read (housed : Housed A stale depth taken w inode d) (deep : 10 < depth)
    (short : fb < 2 ^ 53) :
    Work.dirBlockRead depth inode fb w = ((Dir.dirBlockRead fb d).1, w) ∧
      (Dir.dirBlockRead fb d).2 = d := by
  have blocks := housed.blocks fb
  cases here : w.blockOf depth inode fb with
  | some blk =>
      obtain ⟨y, filed⟩ := housed.filed
      obtain ⟨n, found⟩ := Work.blockOf_eq_some.mp here
      obtain ⟨hdr, T, sound, l, e, rfl, inside, -⟩ :=
        filed.data_mapped ((filed.blockOf deep fb blk).mp here)
      have read := Work.txnRead_run (sound.ready.held.on.mapped l inside)
      rw [here, Option.map_some] at blocks
      rw [Work.dirBlockRead, bind_ok _ _ (get_run (s := w)), found, Dir.dirBlockRead,
        bind_ok _ _ (get_run (s := d)), blocks]
      exact ⟨read, rfl⟩
  | none =>
      obtain ⟨n, found⟩ := housed.hole deep short here
      rw [here, Option.map_none] at blocks
      rw [Work.dirBlockRead, bind_ok _ _ (get_run (s := w)), found, Dir.dirBlockRead,
        bind_ok _ _ (get_run (s := d)), blocks]
      exact ⟨rfl, rfl⟩

theorem Filed.put_data (filed : Filed (fun w taken => Keeping A stale w w taken) taken w inode y)
    (maps : y.Maps fb b) {image : Bytes} (other : getU32 image 0 ≠ ALLOC_MAGIC) :
    Filed (fun w taken => Keeping A stale w w taken) taken (w.put b image) inode y := by
  obtain ⟨_, _, hdr, T, sound, backed⟩ := filed.held
  obtain ⟨l, e, rfl, inside, _, full⟩ := backed b (filed.owned b (Filemap.uses_of_maps maps))
  have sound' : A.Sound stale (w.put (A.blk l) image) hdr T :=
    sound.write inside (full 0) fun magic => absurd magic other
  refine filed.frame (fun b' node => Work.nodeRead_put_of_ne ?_)
    ⟨.refl, .refl _, hdr, T, sound', backed⟩ filed.owned
  rintro rfl
  exact maps.not_node (filed.once _) node

theorem Housed.write (housed : Housed A stale depth taken w inode d) (deep : 10 < depth)
    (here : w.blockOf depth inode fb = some b) {image : Bytes}
    (other : getU32 image 0 ≠ ALLOC_MAGIC) :
    Work.dirBlockWrite b image w = (.ok (), w.put b image) ∧
      Housed A stale depth taken (w.put b image) inode
        (Dir.dirBlockWrite fb (clip w.blocksize image) d).2 := by
  obtain ⟨y, filed⟩ := housed.filed
  have maps := (filed.blockOf deep fb b).mp here
  have filed' := filed.put_data maps other
  refine ⟨Work.txnWrite_run w b image, ⟨y, filed'⟩, fun f => ?_, housed.inode⟩
  have same : (w.put b image).blockOf depth inode f = w.blockOf depth inode f := by
    apply Option.ext
    intro b'
    rw [filed.blockOf deep, filed'.blockOf deep]
  show Function.update d.blocks fb (some (clip w.blocksize image)) f = _
  rw [same, Work.view_put]
  by_cases this : f = fb
  · rw [this, Function.update_self, here, Option.map_some, Function.update_self]
  · rw [Function.update_of_ne this, housed.blocks]
    cases there : w.blockOf depth inode f with
    | none => rfl
    | some b' =>
        have apart : b' ≠ b := by
          rintro rfl
          exact this (((filed.blockOf deep f b').mp there).injective (filed.once b') maps)
        rw [Option.map_some, Option.map_some, Function.update_of_ne apart]

theorem Filed.hashed (filed : Filed (fun w taken => Keeping A stale w w taken) taken w inode y)
    (maps : y.Maps fb b) : HashFormat inode.format := by
  cases filed with
  | empty => exact maps.elim
  | inline format => exact .inl format
  | tree format => exact .inr format

theorem RangeMapped.single {runs : List (Nat × Nat × Nat × Bool)} {inode' : Inode}
    (mapped : RangeMapped taken w depth inode fb 1 runs w' inode') :
    ∃ run, runs[0]? = some run ∧ w'.blockOf depth inode' fb = some run.2.1 := by
  obtain ⟨n, rest, pieces, some⟩ := mapped.tiles.first (Nat.lt_succ_self fb)
  obtain ⟨run, rest', rfl, here, -⟩ := List.map_eq_cons_iff.mp pieces
  obtain ⟨start, size⟩ := Prod.mk.inj here
  have agree := mapped.agree run List.mem_cons_self 0 (size ▸ some)
  rw [Nat.add_zero, Nat.add_zero, start] at agree
  exact ⟨run, rfl, agree⟩

/-- What a call that ensures block `fb` does to the directory: nothing where it is mapped, or it has
one more block. -/
theorem Housed.ensured (housed : Housed A stale depth taken w inode d) (deep : 10 < depth)
    {runs : List (Nat × Nat × Nat × Bool)} {inode' : Inode} {y' : Filemap} {taken' : Nat → Prop}
    (filed : Filed (fun w taken => Keeping A stale w w taken) taken w inode y)
    (mapped : RangeMapped taken w depth inode fb 1 runs w' inode')
    (here : w'.blockOf depth inode' fb = some b)
    (filed' : Filed (fun w taken => Keeping A stale w w taken) taken' w' inode' y')
    (untouched : Untouched (fun b => taken b ∧ ¬ y.HasNode b) w w') :
    ∃ space d', Dir.dirBlockEnsure space fb d = (.ok fb, d') ∧
      Housed A stale depth taken' w' inode' d' := by
  have views : ∀ f b, w.blockOf depth inode f = some b → w'.view b = w.view b := by
    intro f b old
    have maps := (filed.blockOf deep f b).mp old
    exact untouched.views b ⟨filed.owned b (Filemap.uses_of_maps maps),
      maps.not_node (filed.once b)⟩
  have hashed := filed'.hashed ((filed'.blockOf deep fb b).mp here)
  have blocks := housed.blocks fb
  have elsewhere : ∀ f, f ≠ fb → (w'.blockOf depth inode' f).map w'.view =
      (w.blockOf depth inode f).map w.view := by
    intro f other
    cases old : w.blockOf depth inode f with
    | some b => rw [mapped.kept f b old, Option.map_some, Option.map_some, views f b old]
    | none =>
        cases new : w'.blockOf depth inode' f with
        | none => rfl
        | some b =>
            obtain ⟨low, high, -⟩ := mapped.new f b new old
            omega
  cases old : w.blockOf depth inode fb with
  | some b₀ =>
      rw [old, Option.map_some] at blocks
      have formats := filed.hashed ((filed.blockOf deep fb b₀).mp old)
      refine ⟨⟨fun _ _ => .error "", fun _ => .error ""⟩, d, ?_, ⟨y', filed'⟩, fun f => ?_,
        ⟨housed.inode.remap mapped.rest _ _ _, ?_, ?_⟩⟩
      · rw [Dir.dirBlockEnsure, bind_ok _ _ (get_run (s := d)), blocks]
        rfl
      · by_cases this : f = fb
        · rw [this, blocks, mapped.kept fb b₀ old, Option.map_some, views fb b₀ old]
        · rw [elsewhere f this, housed.blocks]
      · exact ⟨fun _ => hashed, fun _ => housed.inode.mapped.mpr formats⟩
      · exact fun none => absurd hashed none
  | none =>
      rw [old, Option.map_none] at blocks
      let grown : Grown :=
        ⟨inode'.format = FMT_TREE, inode'.payload, inode.nblocks, w'.view b⟩
      let d' : Dir := {
        inode := { d.inode with
          format := if grown.tree then FMT_TREE else FMT_EXTENT
          payload := grown.payload
          nblocks := grown.nblocks }
        blocks := Function.update d.blocks fb (some grown.image) }
      refine ⟨⟨fun _ _ => .ok grown, fun _ => .error ""⟩, d', ?_, ⟨y', filed'⟩, fun f => ?_,
        ⟨housed.inode.remap mapped.rest _ _ _, ?_, ?_⟩⟩
      · rw [Dir.dirBlockEnsure, bind_ok _ _ (get_run (s := d)), blocks]
        rfl
      · show Function.update d.blocks fb (some (w'.view b)) f = _
        by_cases this : f = fb
        · rw [this, Function.update_self, here, Option.map_some]
        · rw [Function.update_of_ne this, elsewhere f this, housed.blocks]
      · refine ⟨fun _ => hashed, fun _ => ?_⟩
        show HashFormat (if grown.tree then FMT_TREE else FMT_EXTENT)
        split
        · exact .inr rfl
        · exact .inl rfl
      · exact fun none => absurd hashed none

/-- `dir_block_ensure` over the allocator of the AG is that of `Dir` with some outcome of
`map_ensure`, and ends as it says: the other blocks of the directory keep their contents. -/
theorem Housed.ensure (housed : Housed A stale depth taken w inode d) (deep : 10 < depth)
    (whole : ∀ c < A.cells, ¬ A.Split c) (short : fb < 2 ^ 53)
    (clean : ((Work.allocator A.num).strict.mapEnsure depth inode fb 1 w).1 ≠ .error
      Allocator.spoiled) :
    wp (Work.dirBlockEnsure A.num depth inode fb)
      (fun out w' => w'.blockOf depth out.2 fb = some out.1 ∧ ∃ space d' taken',
        Dir.dirBlockEnsure space fb d = (.ok fb, d') ∧ (∀ b, taken b → taken' b) ∧
        Housed A stale depth taken' w' out.2 d')
      (fun e w' => ∃ n w₀, Relation.ReflTransGen (Work.Call A) w w₀ ∧
        Work.allocExtent A.num n w₀ = (.error e, w')) w := by
  obtain ⟨y, filed⟩ := housed.filed
  rw [Work.dirBlockEnsure, wp_bind]
  refine wp_mono (map_ensure_allocated whole deep (by omega) (filed.keep filed.held) clean) ?_
    fun _ _ => id
  rintro ⟨runs, inode'⟩ w' ⟨mapped, y', filed', -, untouched⟩
  obtain ⟨run, first, here⟩ := mapped.single
  have held := filed'.held.restart
  obtain ⟨space, d', call, housed'⟩ :=
    housed.ensured deep filed mapped here (filed'.keep held) untouched
  dsimp only
  rw [first]
  exact ⟨here, space, d', _, call, fun b => Or.inl, housed'⟩

/-- `map_free_all` leaves a directory without blocks. -/
theorem Housed.free {idle : Nat → Prop} {size : Nat → Nat} {space : Space}
    (same : SameButMapping inode d.inode) (deep : 10 < depth)
    (whole : ∀ c < A.cells, ¬ A.Split c)
    (filed : Filed (fun w taken => Holding A stale w taken idle) taken w inode y)
    (grains : y.Grains (Work.allocator A.num) size taken w) (frees : space.free d = .ok ()) :
    wp ((Work.allocator A.num).mapFreeAll depth inode) (fun inode' w' => ∃ d' taken',
      Dir.mapFreeAll space d = (.ok (), d') ∧ Housed A stale depth taken' w' inode' d' ∧
      d'.inode = inode') (fun _ _ => False) w := by
  refine wp_mono (map_free_all_allocated whole deep filed grains) ?_ fun _ _ => id
  rintro inode' w' ⟨rfl, filed', -⟩
  obtain ⟨hdr, T, sound, backed, -⟩ := filed'.held
  refine ⟨_, _, ?_, housed_start sound backed (.inl rfl), rfl⟩
  rw [Dir.mapFreeAll, bind_ok _ _ (get_run (s := d)), frees]
  have rest := congrArg (fun i : Inode => { i with
    format := FMT_EMPTY, payload := zeros, nblocks := 0, size := 0 }) same.rest
  exact congrArg (fun i => (Except.ok (), Dir.mk i fun _ => none)) rest

end Calls

/-- A call that changes a directory's blocks in the store. -/
inductive Work.DirStep [Crc32c] (A : Ag) (depth : Nat) : Work × Inode → Work × Inode → Prop
  | write {w : Work} {inode : Inode} {fb blk : Nat} {image : Bytes} :
      w.blockOf depth inode fb = some blk → getU32 image 0 ≠ ALLOC_MAGIC →
      DirStep A depth (w, inode) (w.put blk image, inode)
  | ensure {w w' : Work} {inode inode' : Inode} {fb blk : Nat} : fb < 2 ^ 53 →
      ((Work.allocator A.num).strict.mapEnsure depth inode fb 1 w).1 ≠ .error Allocator.spoiled →
      Work.dirBlockEnsure A.num depth inode fb w = (.ok (blk, inode'), w') →
      DirStep A depth (w, inode) (w', inode')

/-- The same call of `Dir`. -/
inductive Dir.Step : Dir → Dir → Prop
  | write {d : Dir} {fb : Nat} {image : Bytes} : (d.blocks fb).isSome →
      Step d (Dir.dirBlockWrite fb image d).2
  | ensure {d d' : Dir} {space : Space} {fb : Nat} :
      Dir.dirBlockEnsure space fb d = (.ok fb, d') → Step d d'

section Runs

variable [Crc32c] {A : Ag} {stale taken : Nat → Prop} {s s' : Work × Inode} {d : Dir} {depth : Nat}

theorem Housed.step (housed : Housed A stale depth taken s.1 s.2 d) (deep : 10 < depth)
    (whole : ∀ c < A.cells, ¬ A.Split c) (step : Work.DirStep A depth s s') :
    ∃ d' taken', Dir.Step d d' ∧ (∀ b, taken b → taken' b) ∧
      Housed A stale depth taken' s'.1 s'.2 d' := by
  cases step with
  | @write w inode fb blk image here other =>
      refine ⟨_, taken, .write ?_, fun b => id, (housed.write deep here other).2⟩
      rw [housed.blocks fb, here]
      rfl
  | ensure short clean run =>
      obtain ⟨-, space, d', taken', call, more, housed'⟩ :=
        wp_ok (housed.ensure deep whole short clean) run
      exact ⟨d', taken', .ensure call, more, housed'⟩

/-- What the calls of a directory do in the store, in any order, they do in `Dir`. -/
theorem Housed.run (housed : Housed A stale depth taken s.1 s.2 d) (deep : 10 < depth)
    (whole : ∀ c < A.cells, ¬ A.Split c)
    (run : Relation.ReflTransGen (Work.DirStep A depth) s s') :
    ∃ d' taken', Relation.ReflTransGen Dir.Step d d' ∧ (∀ b, taken b → taken' b) ∧
      Housed A stale depth taken' s'.1 s'.2 d' := by
  induction run with
  | refl => exact ⟨d, taken, .refl, fun b => id, housed⟩
  | tail _ step ih =>
      obtain ⟨d₁, taken₁, before, more, housed₁⟩ := ih
      obtain ⟨d₂, taken₂, last, more', housed₂⟩ := housed₁.step deep whole step
      exact ⟨d₂, taken₂, before.tail last, fun b old => more' b (more b old), housed₂⟩

end Runs

end FiveFs
