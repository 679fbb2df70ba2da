import FiveFs.OneBucket

/-! Runs of insertions and removals on a directory: the invariant of its hash table, and what a
removal leaves of it. -/

namespace FiveFs

open Buffer Prog

/-- The directories that successful calls of `dir_insert` and `dir_remove` make of a fresh one. The
outcome of each allocation is any. -/
inductive DirRun [Crc32c] (bs : Nat) (hash : String → UInt64) : Dir → Prop
  | fresh {d : Dir} : d.inode.isDir = true → d.inode.format = FMT_EMPTY →
      (∀ fb, d.blocks fb = none) → DirRun bs hash d
  | insert {d d' : Dir} {e : NamedEntry} {space : Space} {fuel : Nat} : DirRun bs hash d →
      e.Proper →
      Dir.dirInsert bs hash space fuel e d = (.ok (), d') → DirRun bs hash d'
  | remove {d d' : Dir} {name : String} {removed : NamedEntry} {space : Space} {fuel : Nat} :
      DirRun bs hash d →
      Dir.dirRemove bs hash space fuel name d = (.ok removed, d') → DirRun bs hash d'

section Slots

variable {hash : String → UInt64} {M : Multiset NamedEntry} {x : DirHeader} {slot : Nat → Nat}
    {bucket : Nat → Bucket}

theorem TableShape.slot_eq (shape : TableShape hash M x slot bucket) {i b : Nat} :
    x.table[i]? = some b ↔ i < 2 ^ x.depth ∧ slot i = b := by
  rw [shape.table, List.getElem?_map]
  constructor
  · intro found
    obtain ⟨j, at_, eq⟩ := Option.map_eq_some_iff.mp found
    obtain ⟨hi, same⟩ := List.getElem?_eq_some_iff.mp at_
    rw [List.length_range] at hi
    rw [List.getElem_range] at same
    exact ⟨hi, same ▸ eq⟩
  · rintro ⟨hi, rfl⟩
    rw [List.getElem?_range hi]
    rfl

theorem TableShape.mem_table (shape : TableShape hash M x slot bucket) {b : Nat} :
    b ∈ x.table ↔ b ∈ ExtHash.live x.depth slot := by
  rw [List.mem_iff_getElem?, ExtHash.mem_live]
  exact exists_congr fun i => shape.slot_eq

end Slots

section Runs

variable [Crc32c] {bs : Nat} {hash : String → UInt64} {d : Dir}

theorem DirRun.holds (takes : TakesBlocksize bs) (run : DirRun bs hash d) : ∃ es,
    DirHolds bs hash d es := by
  induction run with
  | fresh isDir format clear => exact ⟨[], DirHolds.empty isDir format clear⟩
  | insert _ proper run ih =>
      obtain ⟨es, holds⟩ := ih
      obtain ⟨_, next, _⟩ := wp_ok (dirInsert_wp takes _ _ proper holds) run
      exact ⟨_, next⟩
  | remove _ run ih =>
      obtain ⟨es, holds⟩ := ih
      obtain ⟨_, next, _⟩ := wp_ok (dirRemove_wp takes _ _ _ holds) run
      exact ⟨_, next⟩

theorem DirRun.isHashed (takes : TakesBlocksize bs) (run : DirRun bs hash d)
    (format : HashFormat d.inode.format) :
    ∃ M, IsHashed bs hash M d := by
  obtain ⟨es, holds⟩ := run.holds takes
  cases holds with
  | empty _ empty => exact absurd empty format.not_empty
  | embedded _ embed => exact absurd embed format.not_embed
  | hashed inv => exact ⟨es, inv⟩

end Runs

section Sample

def longEntry : NamedEntry :=
  ⟨7, DT_FILE,
  "a-name-that-is-too-long-for-the-payload-of-an-inode-so-that-its-directory-is-hashed"⟩

def entryA : NamedEntry := ⟨8, DT_FILE, "a"⟩
def entryB : NamedEntry := ⟨9, DT_FILE, "b"⟩

def newDir : Dir := ⟨{ mode := 0o040755 }, fun _ => none⟩

theorem longEntry_proper : longEntry.Proper := by
  refine ⟨by decide, by decide, by decide, by decide, ?_⟩
  decide +kernel

theorem entryA_proper : entryA.Proper := by
  refine ⟨by decide, by decide, by decide, by decide, ?_⟩
  decide +kernel

theorem entryB_proper : entryB.Proper := by
  refine ⟨by decide, by decide, by decide, by decide, ?_⟩
  decide +kernel

theorem takes_2048 : TakesBlocksize 2048 :=
  ⟨256, by decide, by decide, by decide, by decide, by decide, by decide, by decide⟩

theorem sample_fits (hash : String → UInt64) :
    BK_HDR + bucketSize ([entryB, longEntry, entryA].map (NamedEntry.keyed hash)) ≤ 2048 := by
  show BK_HDR + ([entryB, longEntry, entryA].map fun e =>
      entrySize (Utf16.encode e.name).length).sum ≤ 2048
  decide +kernel

variable [Crc32c] {hash : String → UInt64}

/-- A directory: `b` is embedded, the long name is hashed with it, and `a` comes, goes and comes
again. -/
structure Sample (hash : String → UInt64) (d₁ d₂ d₃ d₄ d₅ : Dir) : Prop where
  embeds : Dir.dirInsert 2048 hash roomy 1 entryB newDir = (.ok (), d₁)
  converts : Dir.dirInsert 2048 hash roomy 1 longEntry d₁ = (.ok (), d₂)
  inserts : Dir.dirInsert 2048 hash roomy 1 entryA d₂ = (.ok (), d₃)
  removes : Dir.dirRemove 2048 hash roomy 1 "a" d₃ = (.ok entryA, d₄)
  again : Dir.dirInsert 2048 hash roomy 1 entryA d₄ = (.ok (), d₅)
  before : DirHolds 2048 hash d₁ [entryB] ∧ ¬ HashFormat d₁.inode.format
  after : OneBucket 2048 hash [entryB, longEntry] d₂
  three : OneBucket 2048 hash [entryB, longEntry, entryA] d₃
  two : OneBucket 2048 hash [entryB, longEntry] d₄
  last : OneBucket 2048 hash [entryB, longEntry, entryA] d₅

theorem sample_run (hash : String → UInt64) : ∃ d₁ d₂ d₃ d₄ d₅, Sample hash d₁ d₂ d₃ d₄ d₅ := by
  have holds : DirHolds 2048 hash newDir [] := DirHolds.empty (by decide) rfl fun _ => rfl
  have all := sample_fits hash
  have part : BK_HDR + bucketSize ([entryB, longEntry].map (NamedEntry.keyed hash)) ≤ 2048 := by
    rw [show [entryB, longEntry, entryA] = [entryB, longEntry] ++ [entryA] from rfl,
        List.map_append,
      bucketSize_append] at all
    omega
  have newA : ∀ e' ∈ [entryB, longEntry], e'.name ≠ entryA.name := by decide
  obtain ⟨d₁, embeds, format₁⟩ := holds.append (by decide) roomy 1 entryB_proper
    (fun e' member => absurd member List.not_mem_nil) (by decide +kernel)
  have embedded : ¬ HashFormat d₁.inode.format := by
    rw [format₁]
    decide
  have holds₁ : DirHolds 2048 hash d₁ [entryB] := by
    obtain ⟨_, next, _⟩ := wp_ok (dirInsert_wp takes_2048 roomy 1 entryB_proper holds) embeds
    rwa [List.perm_singleton.mp (inserted_perm newDir [] entryB)] at next
  obtain ⟨d₂, converts, after, count₂⟩ := holds₁.convert embedded takes_2048 0 longEntry_proper
    (by decide) (by decide +kernel) part (by decide)
  obtain ⟨d₃, inserts, three, count₃⟩ := after.insertCall takes_2048 roomy 0 entryA_proper newA all
    (by rw [count₂]; decide)
    (Dir.dirInsertCall 2048 hash roomy 1 entryA (panicWith
    "a hashed directory is not converted again"))
  obtain ⟨d₄, removes, two, count₄⟩ := three.remove takes_2048 roomy 0 entryA "a"
    (by decide) (by decide) part (by rw [count₃, count₂]; decide)
  obtain ⟨d₅, again, last, -⟩ := two.insertCall takes_2048 roomy 0 entryA_proper newA all
    (by rw [count₄, count₃, count₂]; decide)
    (Dir.dirInsertCall 2048 hash roomy 1 entryA (panicWith
    "a hashed directory is not converted again"))
  exact ⟨d₁, d₂, d₃, d₄, d₅, embeds, converts, inserts, removes, again, ⟨holds₁, embedded⟩, after,
      three,
    two, last⟩

namespace Sample

variable {d₁ d₂ d₃ d₄ d₅ : Dir} (s : Sample hash d₁ d₂ d₃ d₄ d₅)
include s

theorem run₁ : DirRun 2048 hash d₁ :=
  .insert (.fresh (by decide) rfl fun _ => rfl) entryB_proper s.embeds

theorem run₂ : DirRun 2048 hash d₂ := .insert s.run₁ longEntry_proper s.converts
theorem run₃ : DirRun 2048 hash d₃ := .insert s.run₂ entryA_proper s.inserts
theorem run₄ : DirRun 2048 hash d₄ := .remove s.run₃ s.removes

end Sample

end Sample

section Invariant

variable [Crc32c] {bs : Nat} {hash : String → UInt64} {d : Dir}

/-- In a directory left hashed by any run, with any hash function: a bucket of local depth `l` has
exactly the `2 ^ (d - l)` slots of its `l`-bit prefix, its entries have the hashes of their names
and these the prefix, the buckets of the table and the freelist are the numbers below `nbuckets`
without duplicates, and each has its file block. -/
theorem hash_table_invariant (takes : TakesBlocksize bs) (run : DirRun bs hash d)
    (format : HashFormat d.inode.format) :
    ∃ (x : DirHeader) (bucket : Nat → Bucket), Dir.dhdrRead bs d = (.ok x, d) ∧
      (∀ b < x.nbuckets, Dir.bucketRead bs b d = (.ok (bucket b), d)) ∧
      x.depth ≤ MAX_DEPTH ∧ x.table.length = 2 ^ x.depth ∧
      (∀ b ∈ x.table, (bucket b).ld ≤ x.depth ∧ ∃ p < 2 ^ (bucket b).ld,
        (∀ i < 2 ^ x.depth, x.table[i]? = some b ↔ i / 2 ^ (x.depth - (bucket b).ld) = p) ∧
        x.table.count b = 2 ^ (x.depth - (bucket b).ld) ∧
        ∀ e ∈ (bucket b).entries, e.hash = (hash e.name).toNat ∧
        e.hash / 2 ^ (64 - (bucket b).ld) = p) ∧
      (∀ b, b < x.nbuckets ↔ b ∈ x.table ∨ b ∈ x.freelist) ∧ (∀ b ∈ x.table, b ∉ x.freelist) ∧
          x.freelist.Nodup ∧
      ∀ b < x.nbuckets, (d.blocks (1 + b)).isSome := by
  obtain ⟨M, x, slot, bucket, hashed⟩ := run.isHashed takes format
  have shape := hashed.shape
  refine ⟨x, bucket, hashed.dhdrRead, fun b inside => hashed.bucketRead inside, shape.depth,
      shape.header.size, ?buckets,
    ?parts, ?apart, shape.nodup, ?mapped⟩
  case buckets =>
    intro b member
    obtain ⟨k, hk, rfl⟩ := ExtHash.mem_live.mp (shape.mem_table.mp member)
    have level := shape.owns.depth k hk
    refine ⟨level, ExtHash.pre x.depth (bucket (slot k)).ld k, ExtHash.pre_lt level hk, ?slots,
        ?count, ?entries⟩
    case slots =>
      intro i hi
      rw [shape.slot_eq]
      exact ⟨fun found => (shape.owns.shares k hk i hi).mp found.2,
          fun same => ⟨hi, (shape.owns.shares k hk i hi).mpr same⟩⟩
    case count =>
      have card := shape.owns.card hk
      rw [← card, shape.table, List.count, List.countP_map, List.countP_eq_length_filter,
          Finset.card_def]
      rfl
    case entries =>
      intro e inside
      have place := shape.placed _ (shape.mem_table.mp member) e inside
      obtain ⟨ne, _, rfl⟩ := shape.stored_proper (hashed.slot_lt hk) e inside
      have hi : ExtHash.pre 64 x.depth (hash ne.name).toNat < 2 ^ x.depth :=
        ExtHash.pre_lt (Nat.le_of_lt shape.depth_lt) (hash_lt hash ne.name)
      have same := (shape.owns.shares k hk _ hi).mp place
      rw [ExtHash.pre_pre level (Nat.le_of_lt shape.depth_lt)] at same
      exact ⟨rfl, same⟩
  case parts =>
    intro b
    rw [shape.mem_table]
    exact shape.parts b
  case apart =>
    intro b member
    exact shape.apart b (shape.mem_table.mp member)
  case mapped =>
    intro b inside
    have read := hashed.stored b inside
    cases found : d.blocks (1 + b) with
    | none =>
        rw [found] at read
        cases read
    | some image => rfl

end Invariant

theorem hash_table_invariant_long : ∃ d x, @DirRun castagnoli 2048 (fun _ => 0) d ∧
    @Dir.dirList castagnoli 2048 d = (.ok (sortNames [entryB, longEntry]), d) ∧
    @Dir.dhdrRead castagnoli 2048 d = (.ok x, d) ∧ x.table.length = 2 ^ x.depth ∧
    x.freelist.Nodup := by
  let crc := castagnoli
  obtain ⟨_, _, _, d, _, s⟩ := sample_run fun _ => 0
  obtain ⟨x, _, read, _, _, length, _, _, _, nodup, _⟩ :=
    hash_table_invariant takes_2048 s.run₄ s.two.format
  exact ⟨d, x, s.run₄, s.two.dirList, read, length, nodup⟩

section Coarsening

variable [Crc32c] {bs : Nat} {hash : String → UInt64} {d : Dir}

end Coarsening

end FiveFs
