import FiveFs.Hashing

/-! The loops over the hash table of a directory: every round keeps the table's invariant, and the
rounds end. -/

namespace FiveFs

open Buffer Prog

/-- A directory whose blocks hold the table `x` and its buckets, with the entries `M`. -/
structure Hashed [Crc32c] (bs : Nat) (hash : String → UInt64) (M : Multiset NamedEntry) (d : Dir)
    (x : DirHeader)
    (slot : Nat → Nat) (bucket : Nat → Bucket) : Prop where
  isDir : d.inode.isDir = true
  format : HashFormat d.inode.format
  header : Dir.headerAt bs (d.blocks 0) = .ok x
  stored : ∀ b < x.nbuckets, Dir.bucketAt bs b (d.blocks (1 + b)) = .ok (bucket b)
  shape : TableShape hash M x slot bucket

namespace Dir

/-- No file block outside `blks` has another image, and a hashed directory stays one. -/
structure Touched (blks : List Nat) (d d' : Dir) : Prop where
  isDir : d'.inode.isDir = d.inode.isDir
  format : HashFormat d.inode.format → HashFormat d'.inode.format
  others : ∀ fb, fb ∉ blks → d'.blocks fb = d.blocks fb

theorem Touched.trans {d d' d'' : Dir} {blks blks' : List Nat} (first : Touched blks d d')
    (second : Touched blks' d' d'') :
    Touched (blks ++ blks') d d'' := by
  refine ⟨second.isDir.trans first.isDir, fun format => second.format (first.format format),
      fun fb outside => ?_⟩
  rw [List.mem_append, not_or] at outside
  rw [second.others fb outside.2, first.others fb outside.1]

theorem Wrote.touched {d d' : Dir} {blk : Nat} (wrote : Wrote d d' blk) : Touched [blk] d d' := by
  refine ⟨by rw [wrote.inode], fun format => by rwa [wrote.inode],
      fun fb outside => wrote.others fb ?_⟩
  rwa [List.mem_singleton] at outside

theorem dirBlockEnsure_wp (space : Space) (fb : Nat) (d : Dir) :
    wp (dirBlockEnsure space fb) (fun r d' => r = fb ∧
    Touched [fb] d d' ∧ (d.blocks fb = none → HashFormat d'.inode.format)) Stops d := by
  rw [dirBlockEnsure, wp_bind, wp_get]
  cases found : d.blocks fb with
  | some image =>
      exact ⟨rfl, ⟨rfl, id, fun _ _ => rfl⟩, fun none => by cases none⟩
  | none =>
      dsimp only
      cases grown : space.ensure d fb with
      | error m => exact .inl ⟨m, rfl⟩
      | ok g =>
          have hashed : HashFormat (if g.tree then FMT_TREE else FMT_EXTENT) := by
            split
            · exact Or.inr rfl
            · exact Or.inl rfl
          dsimp only
          rw [wp_bind, wp_modify, wp_pure]
          refine ⟨rfl, ⟨rfl, fun _ => hashed, fun c outside => ?_⟩, fun _ => hashed⟩
          exact Function.update_of_ne (List.ne_of_not_mem_cons outside) _ _

theorem headerAt_blk [Crc32c] {bs : Nat} {image : Option Bytes} {x : DirHeader}
    (read : headerAt bs image = .ok x) :
    x.blk = 0 := by
  cases image with
  | none => cases read
  | some buf =>
      rw [headerAt, Option.elim_some, dhdrParse] at read
      split at read
      · cases read
      split at read
      · cases read
      dsimp only at read
      split at read
      · cases read
      split at read
      · cases read
      split at read
      · cases read
      cases read
      rfl

theorem bucketAt_blk [Crc32c] {bs b : Nat} {image : Option Bytes} {B : Bucket}
    (read : bucketAt bs b image = .ok B) :
    B.blk = 1 + b := by
  cases image with
  | none => cases read
  | some buf =>
      rw [bucketAt, Option.elim_some, bucketParse] at read
      split at read
      · cases read
      split at read
      · cases read
      cases entries : bucketEntries buf bs with
      | error e =>
          rw [entries] at read
          cases read
      | ok es =>
          rw [entries] at read
          cases read
          rfl

end Dir

namespace Hashed

variable [Crc32c] {bs : Nat} {hash : String → UInt64} {M M' : Multiset NamedEntry} {d d' : Dir}
    {x : DirHeader}
  {slot : Nat → Nat} {bucket : Nat → Bucket}

theorem dhdrRead (hashed : Hashed bs hash M d x slot bucket) : Dir.dhdrRead bs d = (.ok x, d) := by
  rw [Dir.dhdrRead_eq, hashed.header]

theorem bucketRead (hashed : Hashed bs hash M d x slot bucket) {b : Nat} (inside : b < x.nbuckets) :
    Dir.bucketRead bs b d = (.ok (bucket b), d) := by
  rw [Dir.bucketRead_eq, hashed.stored b inside]

theorem tableAt (hashed : Hashed bs hash M d x slot bucket) {i : Nat} (hi : i < 2 ^ x.depth) :
    Dir.tableAt x i d = (.ok (slot i), d) := by
  have found : x.table[i]? = some (slot i) := by
    rw [hashed.shape.table, List.getElem?_map, List.getElem?_range hi]
    rfl
  rw [Dir.tableAt, found]
  rfl

theorem slot_lt (hashed : Hashed bs hash M d x slot bucket) {i : Nat} (hi : i < 2 ^ x.depth) :
    slot i < x.nbuckets :=
  hashed.shape.live_lt (ExtHash.slot_live slot hi)

theorem address (hashed : Hashed bs hash M d x slot bucket) {b : Nat} (inside : b < x.nbuckets) :
    (bucket b).blk = 1 + b := Dir.bucketAt_blk (hashed.stored b inside)

theorem level_lt (hashed : Hashed bs hash M d x slot bucket) {i : Nat} (hi : i < 2 ^ x.depth) :
    (bucket (slot i)).ld ≤ MAX_DEPTH := (hashed.shape.owns.depth i hi).trans hashed.shape.depth

theorem rewrite (hashed : Hashed bs hash M d x slot bucket) {b : Nat} {B : Bucket}
    (wrote : Dir.Wrote d d' (1 + b)) (read : Dir.bucketAt bs b (d'.blocks (1 + b)) = .ok B)
    (shape : TableShape hash M' x slot (Function.update bucket b B)) :
    Hashed bs hash M' d' x slot (Function.update bucket b B) := by
  refine ⟨by rw [wrote.inode, hashed.isDir], by rw [wrote.inode]; exact hashed.format, ?_, ?_,
      shape⟩
  · rw [wrote.others 0 (by omega)]
    exact hashed.header
  · intro c hc
    by_cases here : c = b
    · rw [here, Function.update_self]
      exact read
    · rw [Function.update_of_ne here, wrote.others (1 + c) (by omega)]
      exact hashed.stored c hc

theorem split_wp (takes : TakesBlocksize bs) (hashed : Hashed bs hash M d x slot bucket)
    (space : Space)
    {y : DirHeader} {slot' : Nat → Nat} {bno : Nat} {stay go : List HEntry}
    (inside : bno < x.nbuckets)
    (old : ∀ c < y.newCount, c ≠ y.newBno → c < x.nbuckets) (count : y.newCount < 2 ^ 32)
    (home : y.blk = 0)
    (level : (bucket bno).ld < y.depth) (small : y.depth < 64)
    (parts : (bucket bno).entries.partition (fun e =>
    e.hash &&& 1 <<< (63 - (bucket bno).ld) == 0) = (stay, go))
    (shape : TableShape hash M (y.splitAt (bucket bno).ld bno) slot'
      (Function.update (Function.update bucket bno ⟨stay, (bucket bno).ld + 1, 1 + bno⟩) y.newBno
        ⟨go, (bucket bno).ld + 1, 1 + y.newBno⟩)) :
    wp (Dir.splitBucket bs space y bno (bucket bno))
        (fun _ d' => Hashed bs hash M d' (y.splitAt (bucket bno).ld bno) slot'
        (Function.update (Function.update bucket bno ⟨stay, (bucket bno).ld + 1, 1 + bno⟩) y.newBno
          ⟨go, (bucket bno).ld + 1, 1 + y.newBno⟩))
      Stops d := by
  have proper := hashed.shape.bucket_proper inside
  have stays : ∀ e ∈ stay, e.Proper := by
    intro e member
    rw [List.partition_eq_filter_filter] at parts
    cases parts
    exact proper e (List.mem_of_mem_filter member)
  have goes : ∀ e ∈ go, e.Proper := by
    intro e member
    rw [List.partition_eq_filter_filter] at parts
    cases parts
    exact proper e (List.mem_of_mem_filter member)
  rw [Dir.splitBucket, wp_ite, if_neg (Nat.not_le.mpr count), wp_bind]
  refine wp_mono (Dir.dirBlockEnsure_wp space _ d) (fun nblk d₁ ensured => ?_) fun _ _ => id
  obtain ⟨rfl, grown, _⟩ := ensured
  rw [wp_bind, wp_modify, wp_ite, if_neg (by omega)]
  dsimp only
  rw [parts, hashed.address inside, wp_bind]
  refine wp_mono (Dir.bucketWrite_wp takes stays (by omega) bno _) (fun _ d₂ post₂ => ?_) fun _ _ =>
      id
  obtain ⟨wrote₂, read₂⟩ := post₂
  rw [wp_bind]
  refine wp_mono (Dir.bucketWrite_wp takes goes (by omega) y.newBno _) (fun _ d₃ post₃ => ?_)
      fun _ _ => id
  obtain ⟨wrote₃, read₃⟩ := post₃
  rw [wp_ite, if_neg (Nat.not_le.mpr level)]
  refine wp_mono (Dir.dhdrWrite_wp shape.header home d₃) (fun _ d₄ post₄ => ?_) fun _ _ => id
  obtain ⟨wrote₄, read₄⟩ := post₄
  have inode : d₄.inode = { d₁.inode with size := max d₁.inode.size ((2 + y.newBno) * bs) } := by
    rw [wrote₄.inode, wrote₃.inode, wrote₂.inode]
  refine ⟨?_, ?_, read₄, fun c hc => ?_, shape⟩
  · rw [inode]
    exact grown.isDir.trans hashed.isDir
  · rw [inode]
    exact grown.format hashed.format
  · rw [wrote₄.others (1 + c) (by omega)]
    by_cases here : c = y.newBno
    · rw [here, Function.update_self]
      exact read₃
    · rw [Function.update_of_ne here, wrote₃.others (1 + c) (by omega)]
      by_cases mine : c = bno
      · rw [mine, Function.update_self]
        exact read₂
      · rw [Function.update_of_ne mine, wrote₂.others (1 + c) (by omega)]
        dsimp only
        rw [grown.others (1 + c) (by rw [List.mem_singleton]; omega)]
        exact hashed.stored c (old c hc here)

end Hashed

/-- The directory on the way of an insertion: `n` bounds the splits that the bucket of `h` can still
take. -/
def Splitting [Crc32c] (bs : Nat) (hash : String → UInt64) (M : Multiset NamedEntry) (h n : Nat)
    (d : Dir) : Prop :=
  ∃ x slot bucket, Hashed bs hash M d x slot bucket ∧
    MAX_DEPTH + 1 ≤ (bucket (ExtHash.owner 64 x.depth slot h)).ld + n

def IsHashed [Crc32c] (bs : Nat) (hash : String → UInt64) (M : Multiset NamedEntry) (d : Dir) :
    Prop :=
  ∃ x slot bucket, Hashed bs hash M d x slot bucket

/-- The rounds that no loop over a table exceeds. -/
def ROUNDS : Nat := 2 ^ MAX_DEPTH + MAX_DEPTH

/-- With fuel for the rounds, a call stops as it may. -/
def Ends (fuel : Nat) (e : Err) (d : Dir) : Prop := ROUNDS < fuel → Stops e d

section Insert

variable [Crc32c] {bs : Nat} {hash : String → UInt64} {M : Multiset NamedEntry} {d : Dir}
    {x : DirHeader}
  {slot : Nat → Nat} {bucket : Nat → Bucket}

theorem store_wp (takes : TakesBlocksize bs) (hashed : Hashed bs hash M d x slot bucket)
    {e : NamedEntry}
    (proper : e.Proper) :
    wp (Dir.bucketWrite bs (1 + ExtHash.owner 64 x.depth slot (hash e.name).toNat)
      (bucket (ExtHash.owner 64 x.depth slot (hash e.name).toNat)).ld
      ((bucket (ExtHash.owner 64 x.depth slot (hash e.name).toNat)).entries ++ [e.keyed hash]))
      (fun _ d' => IsHashed bs hash (e ::ₘ M) d') Stops d := by
  have hi : ExtHash.pre 64 x.depth (hash e.name).toNat < 2 ^ x.depth :=
    ExtHash.pre_lt (Nat.le_of_lt hashed.shape.depth_lt) (hash_lt hash e.name)
  have member : ExtHash.owner 64 x.depth slot (hash e.name).toNat ∈ ExtHash.live x.depth slot :=
      ExtHash.slot_live slot hi
  have inside := hashed.shape.live_lt member
  have level := hashed.level_lt hi
  have old := hashed.shape.bucket_proper inside
  have all : ∀ e' ∈ (bucket (ExtHash.owner 64 x.depth slot (hash e.name).toNat)).entries ++
      [e.keyed hash], e'.Proper := by
    intro e' added
    rcases List.mem_append.mp added with before | now
    · exact old e' before
    · rw [List.mem_singleton.mp now]
      exact proper.keyed hash
  refine wp_mono (Dir.bucketWrite_wp takes all (Nat.lt_of_le_of_lt level (by decide)) _ d)
      (fun _ d' post => ?_)
    fun _ _ => id
  obtain ⟨wrote, read⟩ := post
  refine ⟨x, slot, _, hashed.rewrite wrote read
      (hashed.shape.replace member _ ?placed ?sum ?proper)⟩
  case placed =>
    intro e' added
    rcases List.mem_append.mp added with before | now
    · exact hashed.shape.placed _ member e' before
    · rw [List.mem_singleton.mp now]
      rfl
  case sum =>
    rw [Multiset.map_cons, ← Multiset.coe_add, Multiset.coe_singleton, add_assoc,
        Multiset.singleton_add]
  case proper =>
    intro e' added
    rcases Multiset.mem_cons.mp added with now | before
    · rw [now]
      exact proper
    · exact hashed.shape.proper e' before

theorem deepen_wp (takes : TakesBlocksize bs) (hashed : Hashed bs hash M d x slot bucket)
    (space : Space) {h n : Nat}
    (wide : h < 2 ^ 64) {y : DirHeader} {slot₁ : Nat → Nat}
    (shape : TableShape hash M y slot₁ bucket)
    (same : ExtHash.owner 64 y.depth slot₁ h = ExtHash.owner 64 x.depth slot h)
    (count : y.nbuckets = x.nbuckets)
    (home : y.blk = 0) (room : (bucket (ExtHash.owner 64 x.depth slot h)).ld < y.depth)
    (inside : ExtHash.owner 64 x.depth slot h < x.nbuckets)
    (bound : MAX_DEPTH + 1 ≤ (bucket (ExtHash.owner 64 x.depth slot h)).ld + n) :
    wp (Dir.splitBucket bs space y (ExtHash.owner 64 x.depth slot h)
    (bucket (ExtHash.owner 64 x.depth slot h)))
      (fun _ d' => ∃ m < n, Splitting bs hash M h m d') Stops d := by
  have hi : ExtHash.pre 64 y.depth h < 2 ^ y.depth :=
      ExtHash.pre_lt (Nat.le_of_lt shape.depth_lt) wide
  have here : slot₁ (ExtHash.pre 64 y.depth h) = ExtHash.owner 64 x.depth slot h := same
  have old : ∀ c < y.newCount, c ≠ y.newBno → c < x.nbuckets := by
    intro c hc new
    rcases TableShape.freelist_next y with grown | again
    · omega
    · omega
  rcases parts : (bucket (ExtHash.owner 64 x.depth slot h)).entries.partition (fun e =>
    e.hash &&& 1 <<< (63 - (bucket (ExtHash.owner 64 x.depth slot h)).ld) == 0) with ⟨stay, go⟩
  have parts' : (bucket (slot₁ (ExtHash.pre 64 y.depth h))).entries.partition (fun e =>
      e.hash &&& 1 <<< (63 - (bucket (slot₁ (ExtHash.pre 64 y.depth h))).ld) == 0) =
          (stay, go) := by rw [here, parts]
  have split := shape.split hi rfl (by rw [here]; exact room) (1 + ExtHash.owner 64 x.depth slot h)
      (1 + y.newBno) parts'
  rw [here] at split
  refine wp_mono (hashed.split_wp takes space inside old shape.newCount_lt home room shape.depth_lt
      parts split)
    (fun _ d' next => ?_) fun _ _ => id
  have depth := shape.depth
  refine ⟨n - 1, by omega, _, _, _, next, ?_⟩
  have apart : ExtHash.owner 64 x.depth slot h ≠ y.newBno := by
    intro eq
    exact shape.newBno_fresh (eq ▸ here ▸ ExtHash.slot_live slot₁ hi)
  dsimp only [DirHeader.splitAt]
  rw [ExtHash.owner_split (Nat.le_of_lt shape.depth_lt) room, same]
  split
  · rw [Function.update_self]
    dsimp only
    omega
  · rw [Function.update_of_ne apart, Function.update_self]
    dsimp only
    omega

theorem insertRound_wp (takes : TakesBlocksize bs) (space : Space) {e : NamedEntry}
    (proper : e.Proper) (n : Nat) (d : Dir)
    (inv : Splitting bs hash M (hash e.name).toNat n d) :
    wp (Dir.insertRound bs space (e.keyed hash)) (Round (Splitting bs hash M (hash e.name).toNat)
      (fun _ d' => IsHashed bs hash (e ::ₘ M) d') n) Stops d := by
  obtain ⟨x, slot, bucket, hashed, bound⟩ := inv
  have wide := hash_lt hash e.name
  have hi : ExtHash.pre 64 x.depth (hash e.name).toNat < 2 ^ x.depth :=
    ExtHash.pre_lt (Nat.le_of_lt hashed.shape.depth_lt) wide
  have table : Dir.tableAt x (bucketIndex (e.keyed hash).hash x.depth) d =
      (.ok (ExtHash.owner 64 x.depth slot (hash e.name).toNat), d) := by
    have index : bucketIndex (e.keyed hash).hash x.depth = ExtHash.pre 64 x.depth
        (hash e.name).toNat :=
      bucketIndex_eq _ _ wide
    rw [index]
    exact hashed.tableAt hi
  have inside : ExtHash.owner 64 x.depth slot (hash e.name).toNat < x.nbuckets := hashed.slot_lt hi
  have home := Dir.headerAt_blk hashed.header
  have shallow : (bucket (ExtHash.owner 64 x.depth slot (hash e.name).toNat)).ld ≤ x.depth :=
      hashed.shape.owns.depth _ hi
  rw [Dir.insertRound, wp_bind, wp_run hashed.dhdrRead, wp_bind, wp_run table, wp_bind,
    wp_run (hashed.bucketRead inside), wp_ite]
  split
  case isTrue =>
    rw [wp_bind, hashed.address inside]
    refine wp_mono (store_wp takes hashed proper) (fun _ d' stored => ?_) fun _ _ => id
    exact ⟨fun _ _ => stored, fun none => by cases none⟩
  case isFalse =>
    rw [wp_ite]
    split
    · exact .inl ⟨_, rfl⟩
    · rename_i shallower
      rw [wp_bind]
      by_cases full : (bucket (ExtHash.owner 64 x.depth slot (hash e.name).toNat)).ld = x.depth
      · have room : x.depth < MAX_DEPTH := by
          by_contra top
          exact shallower ⟨full, Nat.le_of_not_lt top⟩
        rw [if_pos full]
        refine wp_mono (deepen_wp takes hashed space wide (hashed.shape.double room)
          (ExtHash.owner_double hashed.shape.depth_lt slot _) rfl
          (show x.doubled.blk = 0 from home)
          (by rw [full]; exact Nat.lt_succ_self _) inside bound) (fun _ d' next => ?_) fun _ _ => id
        exact ⟨fun _ some => (by cases some), fun _ => next⟩
      · rw [if_neg full]
        refine wp_mono (deepen_wp takes hashed space wide hashed.shape rfl rfl home
          (Nat.lt_of_le_of_ne shallow full) inside bound) (fun _ d' next => ?_) fun _ _ => id
        exact ⟨fun _ some => (by cases some), fun _ => next⟩

theorem hashedInsert_wp (takes : TakesBlocksize bs) (space : Space) {e : NamedEntry}
    (proper : e.Proper) (fuel : Nat)
    (inv : IsHashed bs hash M d) :
    wp (Dir.hashedInsert bs hash space fuel e) (fun _ d' => IsHashed bs hash (e ::ₘ M) d')
    (Ends fuel) d := by
  obtain ⟨x, slot, bucket, hashed⟩ := inv
  have start : Splitting bs hash M (hash e.name).toNat (MAX_DEPTH + 1) d :=
      ⟨x, slot, bucket, hashed, Nat.le_add_left _ _⟩
  by_cases enough : ROUNDS < fuel
  · exact wp_mono (wp_loop (fun n s inv => insertRound_wp takes space proper n s inv) fuel
        (MAX_DEPTH + 1) d
      (Nat.lt_trans (by decide) enough) start) (fun _ _ => id) fun _ _ bails _ => bails
  · exact wp_mono (wp_loop_ends (fun n s inv =>
        wp_mono (insertRound_wp takes space proper n s inv) (fun _ _ => id)
      fun _ _ _ => trivial) fuel (MAX_DEPTH + 1) d start) (fun _ _ => id) fun _ _ _ many =>
      absurd many enough

end Insert

section Merge

variable [Crc32c] {bs : Nat} {hash : String → UInt64} {M : Multiset NamedEntry} {d : Dir}
    {x : DirHeader}
  {slot : Nat → Nat} {bucket : Nat → Bucket}

/-- The bucket of slot `k` has a buddy of its depth, and the two fit one block. -/
structure Mergeable (bs depth : Nat) (slot : Nat → Nat) (bucket : Nat → Bucket) (k : Nat) :
    Prop where
  some : 0 < (bucket (slot k)).ld
  apart : slot (k ^^^ 2 ^ (depth - (bucket (slot k)).ld)) ≠ slot k
  level : (bucket (slot (k ^^^ 2 ^ (depth - (bucket (slot k)).ld)))).ld = (bucket (slot k)).ld
  fits : mergeFits bs (bucket (slot k)).entries
    (bucket (slot (k ^^^ 2 ^ (depth - (bucket (slot k)).ld)))).entries = true

/-- The table on the way of a merge pass: `n` bounds its buckets together with its depth. -/
def Coarsening (bs : Nat) (hash : String → UInt64) (M : Multiset NamedEntry) (n : Nat) (d : Dir) :
    Prop :=
  ∃ x slot bucket, Hashed bs hash M d x slot bucket ∧ (ExtHash.live x.depth slot).card + x.depth ≤ n

/-- No buddies are left that fit together, and the table is as small as it can be. -/
def Coarse (bs : Nat) (hash : String → UInt64) (M : Multiset NamedEntry) (d : Dir) : Prop :=
  ∃ x slot bucket, Hashed bs hash M d x slot bucket ∧
  (∀ k < 2 ^ x.depth, ¬ Mergeable bs x.depth slot bucket k) ∧
    (x.depth = 0 ∨ ∃ i, 2 * i + 1 < 2 ^ x.depth ∧ slot (2 * i) ≠ slot (2 * i + 1))

/-- The blocks of a merge: the bucket, its buddy left empty, and last the header. -/
theorem merge_wp (takes : TakesBlocksize bs) (hashed : Hashed bs hash M d x slot bucket) {k : Nat}
    (hk : k < 2 ^ x.depth)
    (merge : Mergeable bs x.depth slot bucket k) {n : Nat}
    (bound : (ExtHash.live x.depth slot).card + x.depth ≤ n) :
    wp (do
      Dir.bucketWrite bs (1 + slot k) ((bucket (slot k)).ld - 1)
        ((bucket (slot k)).entries ++ (bucket (slot
        (k ^^^ 2 ^ (x.depth - (bucket (slot k)).ld)))).entries)
      Dir.bucketWrite bs (1 + slot (k ^^^ 2 ^ (x.depth - (bucket (slot k)).ld))) 0 []
      Dir.dhdrWrite bs (x.mergeAt (slot k) (slot (k ^^^ 2 ^ (x.depth - (bucket (slot k)).ld))))
      return true) (fun r d' => r = true ∧ ∃ m < n, Coarsening bs hash M m d') Stops d := by
  have shallow := hashed.shape.owns.depth k hk
  have hk2 := ExtHash.xor_lt merge.some hk shallow
  have buddy := ExtHash.pre_xor x.depth (bucket (slot k)).ld k
  have inside := hashed.slot_lt hk
  have inside2 := hashed.slot_lt hk2
  have apart := merge.apart
  have level2 := merge.level
  have small := hashed.level_lt hk
  have shape := hashed.shape.merge hk hk2 rfl level2 merge.some buddy (Ne.symm apart) (1 + slot k)
    (1 + slot (k ^^^ 2 ^ (x.depth - (bucket (slot k)).ld)))
  have live := ExtHash.live_merge slot hk (Ne.symm apart)
  have fewer := Finset.card_erase_lt_of_mem (ExtHash.slot_live slot hk2)
  rw [← live] at fewer
  generalize k ^^^ 2 ^ (x.depth - (bucket (slot k)).ld) = k2 at *
  have proper : ∀ e ∈ (bucket (slot k)).entries ++ (bucket (slot k2)).entries, e.Proper := by
    intro e member
    rcases List.mem_append.mp member with one | two
    · exact hashed.shape.bucket_proper inside e one
    · exact hashed.shape.bucket_proper inside2 e two
  have small8 : (bucket (slot k)).ld - 1 < 2 ^ 8 := by
    rw [MAX_DEPTH] at small
    omega
  rw [wp_bind]
  refine wp_mono (Dir.bucketWrite_wp takes proper small8 (slot k) d) (fun _ d₁ post₁ => ?_)
      fun _ _ => id
  obtain ⟨wrote₁, read₁⟩ := post₁
  rw [wp_bind]
  refine wp_mono (Dir.bucketWrite_wp takes (fun e member => absurd member List.not_mem_nil)
      (by decide) (slot k2) d₁)
    (fun _ d₂ post₂ => ?_) fun _ _ => id
  obtain ⟨wrote₂, read₂⟩ := post₂
  rw [wp_bind]
  refine wp_mono (Dir.dhdrWrite_wp shape.header (Dir.headerAt_blk (x := x) hashed.header) d₂)
      (fun _ d₃ post₃ => ?_)
    fun _ _ => id
  obtain ⟨wrote₃, read₃⟩ := post₃
  have inode : d₃.inode = d.inode := by rw [wrote₃.inode, wrote₂.inode, wrote₁.inode]
  refine ⟨rfl, n - 1, ?_, _, _, _, ⟨?_, ?_, read₃, fun c hc => ?_, shape⟩, ?_⟩
  · omega
  · rw [inode]
    exact hashed.isDir
  · rw [inode]
    exact hashed.format
  · have hc' : c < x.nbuckets := hc
    rw [wrote₃.others (1 + c) (by omega)]
    by_cases second : c = slot k2
    · rw [second, Function.update_self]
      exact read₂
    · rw [Function.update_of_ne second, wrote₂.others (1 + c) (by omega)]
      by_cases first : c = slot k
      · rw [first, Function.update_self]
        exact read₁
      · rw [Function.update_of_ne first, wrote₁.others (1 + c) (by omega)]
        exact hashed.stored c hc'
  · show (ExtHash.live x.depth _).card + x.depth ≤ n - 1
    omega

theorem mergeScan_wp (takes : TakesBlocksize bs) (hashed : Hashed bs hash M d x slot bucket)
    {n : Nat}
    (bound : (ExtHash.live x.depth slot).card + x.depth ≤ n) (idxs : List Nat)
    (inside : ∀ k ∈ idxs, k < 2 ^ x.depth) :
    wp (Dir.mergeScan bs x idxs) (fun acted d' =>
    (acted = true ∧ ∃ m < n, Coarsening bs hash M m d') ∨
      (acted = false ∧ d' = d ∧ ∀ k ∈ idxs, ¬ Mergeable bs x.depth slot bucket k)) Stops d := by
  induction idxs with
  | nil => exact Or.inr ⟨rfl, rfl, fun k member => absurd member List.not_mem_nil⟩
  | cons k rest ih =>
      have hk := inside k List.mem_cons_self
      have shallow := hashed.shape.owns.depth k hk
      have later := ih fun k' member => inside k' (List.mem_cons_of_mem _ member)
      have skip : ¬ Mergeable bs x.depth slot bucket k →
          wp (Dir.mergeScan bs x rest) (fun acted d' =>
          (acted = true ∧ ∃ m < n, Coarsening bs hash M m d') ∨
          (acted = false ∧ d' = d ∧ ∀ k' ∈ k :: rest, ¬ Mergeable bs x.depth slot bucket k')) Stops
              d := by
        intro unfit
        refine wp_mono later (fun acted d' post => ?_) fun _ _ => id
        rcases post with merged | none
        · exact Or.inl merged
        · refine Or.inr ⟨none.1, none.2.1, fun k' member => ?_⟩
          rcases List.mem_cons.mp member with first | other
          · rw [first]
            exact unfit
          · exact none.2.2 k' other
      rw [Dir.mergeScan, wp_bind, wp_run (hashed.tableAt hk), wp_bind,
          wp_run (hashed.bucketRead (hashed.slot_lt hk)),
        wp_ite]
      split
      case isTrue zero => exact skip fun merge => absurd zero (Nat.ne_of_gt merge.some)
      case isFalse some =>
        have hk2 := ExtHash.xor_lt (Nat.pos_of_ne_zero some) hk shallow
        rw [wp_ite, if_neg (Nat.not_lt.mpr shallow), wp_bind, Nat.one_shiftLeft,
            wp_run (hashed.tableAt hk2), wp_ite]
        split
        case isTrue same => exact skip fun merge => merge.apart same
        case isFalse apart =>
          rw [wp_bind, wp_run (hashed.bucketRead (hashed.slot_lt hk2)), wp_ite]
          split
          case isTrue different => exact skip fun merge => different merge.level
          case isFalse level =>
            rw [wp_ite]
            split
            case isTrue large => exact skip fun merge => by rw [merge.fits] at large; cases large
            case isFalse fits =>
              have merge : Mergeable bs x.depth slot bucket k :=
                ⟨Nat.pos_of_ne_zero some, apart, by simpa using level, by simpa using fits⟩
              rw [hashed.address (hashed.slot_lt hk), hashed.address (hashed.slot_lt hk2)]
              exact wp_mono (merge_wp takes hashed hk merge bound) (fun _ _ => Or.inl) fun _ _ => id

theorem mergeRound_wp (takes : TakesBlocksize bs) (n : Nat) (d : Dir)
    (inv : Coarsening bs hash M n d) :
    wp (Dir.mergeRound bs) (Round (Coarsening bs hash M) (fun _ d' => Coarse bs hash M d') n) Stops
    d := by
  obtain ⟨x, slot, bucket, hashed, bound⟩ := inv
  rw [Dir.mergeRound, wp_bind, wp_run hashed.dhdrRead, wp_ite]
  split
  case isTrue zero =>
    refine ⟨fun _ _ => ⟨x, slot, bucket, hashed, fun k hk merge => ?_, Or.inl zero⟩,
        fun none => by cases none⟩
    have shallow := hashed.shape.owns.depth k hk
    have some := merge.some
    omega
  case isFalse some =>
    have length : x.table.length = 2 ^ x.depth := hashed.shape.header.size
    rw [wp_bind, length]
    refine wp_mono (mergeScan_wp takes hashed bound _ fun k member => List.mem_range.mp member)
      (fun acted d' post => ?_) fun _ _ => id
    rcases post with ⟨rfl, less⟩ | ⟨rfl, rfl, unfit⟩
    · exact ⟨fun _ some => (by cases some), fun _ => less⟩
    · obtain ⟨depth, eq⟩ : ∃ depth, x.depth = depth + 1 := ⟨x.depth - 1, by omega⟩
      have pairs : (DirHeader.chunks2 x.table).all (fun p => p.1 == p.2) = true ↔
          ∀ i < 2 ^ depth, slot (2 * i) = slot (2 * i + 1) := by
        rw [hashed.shape.table, eq, chunks2_table, List.all_map, List.all_eq_true]
        simp
      rw [wp_ite, if_neg (by decide), wp_ite]
      split
      case isTrue equal =>
        have shape := hashed.shape.halve eq (pairs.mp equal)
        rw [wp_bind]
        refine wp_mono (Dir.dhdrWrite_wp shape.header (Dir.headerAt_blk (x := x) hashed.header) d')
          (fun _ d₁ post => ?_) fun _ _ => id
        obtain ⟨wrote, read⟩ := post
        refine ⟨fun _ some => (by cases some), fun _ =>
            ⟨n - 1, by omega, _, _, _, ⟨?_, ?_, read, fun c hc => ?_, shape⟩, ?_⟩⟩
        · rw [wrote.inode]
          exact hashed.isDir
        · rw [wrote.inode]
          exact hashed.format
        · rw [wrote.others (1 + c) (by omega)]
          exact hashed.stored c hc
        · have live := ExtHash.live_halve (pairs.mp equal)
          show (ExtHash.live (x.depth - 1) _).card + (x.depth - 1) ≤ n - 1
          rw [show x.depth - 1 = depth by omega, live, ← eq]
          omega
      case isFalse unequal =>
        refine ⟨fun _ _ => ⟨x, slot, bucket, hashed, fun k hk => unfit k (List.mem_range.mpr hk),
            Or.inr ?_⟩,
          fun none => by cases none⟩
        have pair : ∃ i, ¬ (i < 2 ^ depth → slot (2 * i) = slot (2 * i + 1)) := by
          by_contra all
          exact unequal (pairs.mpr fun i hi => by_contra fun different =>
              all ⟨i, fun imp => different (imp hi)⟩)
        obtain ⟨i, different⟩ := pair
        rw [Classical.not_imp] at different
        refine ⟨i, ?_, different.2⟩
        rw [eq, pow_succ]
        omega

theorem tryMerge_wp (takes : TakesBlocksize bs) (fuel : Nat) (inv : IsHashed bs hash M d) :
    wp (Dir.tryMerge bs fuel) (fun _ d' => Coarse bs hash M d') (Ends fuel) d := by
  obtain ⟨x, slot, bucket, hashed⟩ := inv
  have depth := hashed.shape.depth
  have bound : (ExtHash.live x.depth slot).card + x.depth ≤ ROUNDS := by
    calc
      _ ≤ 2 ^ x.depth + x.depth := Nat.add_le_add_right (ExtHash.live_card_le _ _) _
      _ ≤ 2 ^ MAX_DEPTH + MAX_DEPTH := Nat.add_le_add (Nat.pow_le_pow_right (by decide) depth) depth
  have start : Coarsening bs hash M ROUNDS d := ⟨x, slot, bucket, hashed, bound⟩
  by_cases enough : ROUNDS < fuel
  · exact wp_mono (wp_loop (fun n s inv => mergeRound_wp takes n s inv) fuel ROUNDS d enough start)
        (fun _ _ => id)
      fun _ _ bails _ => bails
  · exact wp_mono (wp_loop_ends (fun n s inv =>
        wp_mono (mergeRound_wp takes n s inv) (fun _ _ => id)
      fun _ _ _ => trivial) fuel ROUNDS d start) (fun _ _ => id) fun _ _ _ many =>
      absurd many enough

end Merge

end FiveFs
