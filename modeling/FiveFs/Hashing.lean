import FiveFs.Dir
import FiveFs.Lib.ExtHash
import Mathlib.Algebra.BigOperators.Group.Finset.Basic
import Mathlib.Data.Nat.Bitwise

/-! The hash table of a directory: what its blocks hold once written, and the invariant of the table
and its buckets. -/

namespace FiveFs

open Buffer Prog

/-- Every field has a value of its width, and the table is that of the depth. -/
structure DirHeader.Proper (x : DirHeader) : Prop where
  depth : x.depth ≤ MAX_DEPTH
  size : x.table.length = 2 ^ x.depth
  nbuckets : x.nbuckets < 2 ^ 32
  table : ∀ b ∈ x.table, b < 2 ^ 32
  freelist : ∀ b ∈ x.freelist, b < 2 ^ 32
  short : x.freelist.length < 2 ^ 16

def HashFormat (format : Nat) : Prop := format = FMT_EXTENT ∨ format = FMT_TREE

instance (format : Nat) : Decidable (HashFormat format) := inferInstanceAs (Decidable (_ ∨ _))

/-- A failure that is reported. -/
def Bails (e : Err) : Prop := ∃ m, e = .bail m

/-- How a call may stop: with a reported error, or at a block whose generation is the last one. -/
def Stops (e : Err) (d : Dir) : Prop :=
  Bails e ∨ e = .panic "attempt to add with overflow" ∧ ∃ blk, Dir.generation blk d = 2 ^ 64 - 1

theorem stops_at {blk : Nat} {d : Dir} (last : Dir.generation blk d + 1 ≥ 2 ^ 64) :
    Stops (.panic "attempt to add with overflow") d := by
  refine .inr ⟨rfl, blk, ?_⟩
  have small : Dir.generation blk d < 2 ^ 64 := by
    rw [Dir.generation]
    cases d.blocks blk with
    | none => exact Nat.two_pow_pos 64
    | some image => exact getBE_lt image 8 8
  omega

namespace Dir

section Images

theorem putFree_of_not_mem {bs : Nat} (l : List Nat) (b : Bytes) {k i : Nat}
    (fits : (k + l.length) * 4 ≤ bs)
    (outside : i < bs - (k + l.length) * 4 ∨ bs - k * 4 ≤ i) : putFree bs b k l i = b i := by
  induction l generalizing b k with
  | nil => rfl
  | cons v rest ih =>
      rw [List.length_cons] at fits outside
      rw [putFree, ih _ (by omega) (by omega), putU32, putBE_of_not_mem (by omega)]

theorem getU32_putFree {bs : Nat} (l : List Nat) (b : Bytes) {k : Nat}
    (fits : (k + l.length) * 4 ≤ bs)
    (wide : ∀ v ∈ l, v < 2 ^ 32) :
    (List.range l.length).map (fun i => getU32 (putFree bs b k l) (bs - 4 * (k + i + 1))) = l := by
  induction l generalizing b k with
  | nil => rfl
  | cons v rest ih =>
      rw [List.length_cons] at fits
      rw [List.length_cons, List.range_succ_eq_map, List.map_cons, List.map_map]
      congr 1
      · calc
          _ = getU32 (putU32 b (bs - 4 * (k + 1)) v) (bs - 4 * (k + 1)) := by
            apply getBE_congr
            intro i hi
            rw [putFree, putFree_of_not_mem rest _ (by omega) (Or.inr (by omega)), Nat.add_zero]
          _ = v := by
            rw [getU32, putU32, getBE_putBE]
            exact Nat.mod_eq_of_lt (wide v List.mem_cons_self)
      · calc
          _ = (List.range rest.length).map
              (fun i => getU32 (putFree bs (putU32 b (bs - 4 * (k + 1)) v) (k + 1) rest)
              (bs - 4 * (k + 1 + i + 1))) := by
            apply List.map_congr_left
            intro i _
            rw [Function.comp_apply, putFree]
            congr 2
            omega
          _ = rest := ih _ (by omega) fun v member => wide v (List.mem_cons_of_mem _ member)

variable [Crc32c] {bs : Nat}

theorem sealed (b : Bytes) (inside : 8 ≤ bs) :
    getU32 (putU32 b 4 (csum b bs 4)) 4 = csum (putU32 b 4 (csum b bs 4)) bs 4 := by
  rw [csum_putU32 _ inside, getU32, putU32, getBE_putBE]
  exact Nat.mod_eq_of_lt (csum_lt _ _ _)

theorem dhdrParse_fields (old : Nat) {x : DirHeader} {d : Bytes} (proper : x.Proper)
    (fits : DH_HDR + x.table.length * 4 + x.freelist.length * 4 ≤ bs)
    (same : ∀ i, i < 4 ∨ 8 ≤ i → d i = dhdrFields bs old x i) (sum : getU32 d 4 = csum d bs 4)
    (blk : Nat) :
    dhdrParse bs d blk = .ok { x with blk } := by
  have hdr : DH_HDR = 24 := rfl
  have depth : x.depth < 2 ^ 8 := Nat.lt_of_le_of_lt proper.depth (by decide)
  have front : ∀ off n, off + n ≤ 24 → off + n ≤ 4 ∨ 8 ≤ off → getBE d off n =
      getBE (putU32 (putU16 (putBE 1 (putU64 (putU32 zeros 0 DIRH_MAGIC) 8 (old + 1)) 16 x.depth) 18
        x.freelist.length) 20 x.nbuckets) off n := by
    intro off n small away
    apply getBE_congr
    intro i hi
    rw [same _ (by omega), dhdrFields, putFree_of_not_mem _ _ (by omega) (Or.inl (by omega)),
      putArr_of_not_mem _ _ _ _ _ (Or.inl (by omega))]
  have magic := front 0 4 (by decide) (by decide)
  have level := front 16 1 (by decide) (by decide)
  have count := front 18 2 (by decide) (by decide)
  have number := front 20 4 (by decide) (by decide)
  have some := proper.nbuckets
  have short := proper.short
  simp (disch := omega) only [putU64, putU32, putU16, getBE_putBE_disjoint, getBE_putBE,
      Nat.reducePow,
    Nat.mod_eq_of_lt] at magic level count number
  have table : getArr 4 d DH_HDR (2 ^ x.depth) = x.table := by
    rw [← proper.size]
    calc
      _ = getArr 4 (putArr 4 (putU32 (putU16 (putBE 1
      (putU64 (putU32 zeros 0 DIRH_MAGIC) 8 (old + 1)) 16 x.depth) 18
          x.freelist.length) 20 x.nbuckets) DH_HDR x.table) DH_HDR x.table.length := by
        apply getArr_congr
        intro i hi
        rw [same _ (by omega), dhdrFields, putFree_of_not_mem x.freelist _ (by omega)
            (Or.inl (by omega))]
      _ = x.table := getArr_putArr 4 _ _ _ proper.table
  have freelist : (List.range x.freelist.length).map
      (fun k => getU32 d (bs - 4 * (k + 1))) = x.freelist := by
    calc
      _ = (List.range x.freelist.length).map (fun k =>
      getU32 (putFree bs (putArr 4 (putU32 (putU16 (putBE 1 (putU64
          (putU32 zeros 0 DIRH_MAGIC) 8 (old + 1)) 16 x.depth) 18 x.freelist.length) 20 x.nbuckets)
          DH_HDR x.table) 0
          x.freelist) (bs - 4 * (0 + k + 1))) := by
        apply List.map_congr_left
        intro k member
        have bound := List.mem_range.mp member
        rw [Nat.zero_add]
        apply getBE_congr
        intro i hi
        rw [same _ (by omega), dhdrFields]
      _ = x.freelist := getU32_putFree x.freelist _ (by omega) proper.freelist
  have shift : ¬ x.depth ≥ 64 := by
    have small := proper.depth
    rw [MAX_DEPTH] at small
    omega
  have stored : ¬ getU32 d 4 ≠ csum d bs 4 := fun different => different sum
  have space : ¬ DH_HDR + 2 ^ x.depth * 4 > bs := by
    rw [← proper.size]
    omega
  rw [dhdrParse, if_neg stored, getU32, magic, level, getU16, count, getU32, number]
  dsimp only
  rw [table, freelist, if_neg (fun different => different (by decide)), if_neg shift, if_neg space,
      if_neg (by omega)]

theorem bucketParse_built (takes : TakesBlocksize bs) {es : List HEntry} {ld : Nat} {buf d : Bytes}
    (proper : ∀ e ∈ es, e.Proper) (level : ld < 2 ^ 8) (run : bucketBuild bs ld es = .ok buf)
    (same : ∀ i, i < 4 ∨ 16 ≤ i → d i = buf i) (sum : getU32 d 4 = csum d bs 4) (bno blk : Nat) :
    bucketParse bs bno d blk = .ok ⟨es, ld, blk⟩ := by
  have hdr : BK_HDR = 24 := rfl
  have header : BK_HDR ≤ bs := by
    obtain ⟨_, _, large, _⟩ := takes
    omega
  have fits := (bucketBuild_ok header ld es).mp ⟨buf, run⟩
  have read := bucketEntries_bucketBuild (d := d) header (takes.count fits) proper run
    fun i low _ => same i (Or.inr low)
  rw [bucketBuild_eq header, if_pos fits] at run
  cases run
  have front : ∀ off n, off + n ≤ 24 → off + n ≤ 4 ∨ 16 ≤ off → getBE d off n =
      getBE (putU16 (putBE 1 (putU32 zeros 0 BUCKET_MAGIC) 16 ld) 18 es.length) off n := by
    intro off n small away
    apply getBE_congr
    intro i hi
    rw [same _ (by omega), putBucket_of_not_mem _ _ (Or.inl (by omega))]
  have magic := front 0 4 (by decide) (by decide)
  have depth := front 16 1 (by decide) (by decide)
  simp (disch := omega) only [putU32, putU16, getBE_putBE_disjoint, getBE_putBE, Nat.reducePow,
    Nat.mod_eq_of_lt] at magic depth
  have stored : ¬ getU32 d 4 ≠ csum d bs 4 := fun different => different sum
  rw [bucketParse, if_neg stored, getU32, magic, depth, read,
      if_neg (fun different => different (by decide))]
  rfl

end Images

section Access

variable [Crc32c] {bs : Nat}

/-- The header as `dhdr_read` finds it in the image of file block 0. -/
def headerAt (bs : Nat) (image : Option Bytes) : Except Err DirHeader :=
  image.elim (.error (.bail s!"directory block {0} is a hole")) fun buf => dhdrParse bs buf 0

def bucketAt (bs bno : Nat) (image : Option Bytes) : Except Err Bucket :=
  image.elim (.error (.bail s!"directory block {1 + bno} is a hole")) fun buf =>
  bucketParse bs bno buf (1 + bno)

theorem dhdrRead_eq (d : Dir) : dhdrRead bs d = (headerAt bs (d.blocks 0), d) := by
  rw [dhdrRead]
  cases found : d.blocks 0 with
  | none =>
      have addr : dirBlockAddr 0 d = (.error (.bail s!"directory block {0} is a hole"), d) := by
        rw [dirBlockAddr, bind_ok _ _ get_run, found]
        rfl
      rw [bind_error _ _ addr]
      rfl
  | some image =>
      have addr : dirBlockAddr 0 d = (.ok 0, d) := by
        rw [dirBlockAddr, bind_ok _ _ get_run, found]
        rfl
      have read : dirBlockRead 0 d = (.ok image, d) := by
        rw [dirBlockRead, bind_ok _ _ get_run, found]
        rfl
      rw [bind_ok _ _ addr, bind_ok _ _ read]
      rfl

theorem bucketRead_eq (bno : Nat) (d : Dir) :
    bucketRead bs bno d = (bucketAt bs bno (d.blocks (1 + bno)), d) := by
  rw [bucketRead]
  cases found : d.blocks (1 + bno) with
  | none =>
      have addr : dirBlockAddr (1 + bno) d = (.error
          (.bail s!"directory block {1 + bno} is a hole"), d) := by
        rw [dirBlockAddr, bind_ok _ _ get_run, found]
        rfl
      rw [bind_error _ _ addr]
      rfl
  | some image =>
      have addr : dirBlockAddr (1 + bno) d = (.ok (1 + bno), d) := by
        rw [dirBlockAddr, bind_ok _ _ get_run, found]
        rfl
      have read : dirBlockRead (1 + bno) d = (.ok image, d) := by
        rw [dirBlockRead, bind_ok _ _ get_run, found]
        rfl
      rw [bind_ok _ _ addr, bind_ok _ _ read]
      rfl

/-- A directory after a write of one of its blocks. -/
structure Wrote (d d' : Dir) (blk : Nat) : Prop where
  inode : d'.inode = d.inode
  others : ∀ fb, fb ≠ blk → d'.blocks fb = d.blocks fb

theorem dhdrWrite_run {x : DirHeader} (proper : x.Proper) (zero : x.blk = 0)
    (fits : DH_HDR + x.table.length * 4 + x.freelist.length * 4 ≤ bs) {d : Dir}
    (young : generation 0 d + 1 < 2 ^ 64) :
    ∃ d', dhdrWrite bs x d = (.ok (), d') ∧ Wrote d d' 0 ∧ headerAt bs (d'.blocks 0) = .ok x := by
  have hdr : DH_HDR = 24 := rfl
  have parsed := dhdrParse_fields (generation x.blk d)
    (d := putU32 (dhdrFields bs (generation x.blk d) x) 4
    (csum (dhdrFields bs (generation x.blk d) x) bs 4)) proper
    fits (fun i outside => putBE_of_not_mem (by omega)) (sealed _ (by omega)) 0
  rw [zero] at parsed
  rw [dhdrWrite, bind_ok _ _ get_run, zero, if_neg (Nat.not_le.mpr young),
      if_neg (Nat.not_lt.mpr fits),
    dirBlockWrite]
  refine ⟨_, rfl, ⟨rfl, fun fb other => Function.update_of_ne other _ _⟩, ?_⟩
  dsimp only
  rw [Function.update_self, headerAt, Option.elim_some]
  exact parsed.trans (congrArg _ (by rw [← zero]))

theorem dhdrWrite_wp {x : DirHeader} (proper : x.Proper) (zero : x.blk = 0) (d : Dir) :
    wp (dhdrWrite bs x) (fun _ d' => Wrote d d' 0 ∧ headerAt bs (d'.blocks 0) = .ok x) Stops d := by
  by_cases young : generation 0 d + 1 < 2 ^ 64
  · by_cases fits : DH_HDR + x.table.length * 4 + x.freelist.length * 4 ≤ bs
    · obtain ⟨d', run, post⟩ := dhdrWrite_run proper zero fits young
      exact wp_of_ok run post
    · rw [dhdrWrite, wp_bind, wp_get, zero, wp_ite, if_neg (Nat.not_le.mpr young), wp_ite,
        if_pos (Nat.lt_of_not_le fits)]
      exact .inl ⟨_, rfl⟩
  · rw [dhdrWrite, wp_bind, wp_get, zero, wp_ite, if_pos (Nat.le_of_not_lt young)]
    exact stops_at (Nat.le_of_not_lt young)

theorem bucketWrite_run (takes : TakesBlocksize bs) (es : List HEntry) {ld : Nat}
    (proper : ∀ e ∈ es, e.Proper)
    (level : ld < 2 ^ 8) (fits : BK_HDR + bucketSize es ≤ bs) {bno : Nat} {d : Dir}
    (young : generation (1 + bno) d + 1 < 2 ^ 64) :
    ∃ d', bucketWrite bs (1 + bno) ld es d = (.ok (), d') ∧ Wrote d d' (1 + bno) ∧
      bucketAt bs bno (d'.blocks (1 + bno)) = .ok ⟨es, ld, 1 + bno⟩ := by
  have hdr : BK_HDR = 24 := rfl
  obtain ⟨buf, run⟩ := (bucketBuild_ok (by omega) ld es).mpr fits
  have parsed := bucketParse_built (d := putU32 (putU64 buf 8 (generation (1 + bno) d + 1)) 4
    (csum (putU64 buf 8 (generation (1 + bno) d + 1)) bs 4)) takes proper level run
    (fun i outside => by
      rw [putU32, putBE_of_not_mem (by omega), putU64, putBE_of_not_mem (by omega)])
    (sealed _ (by omega)) bno (1 + bno)
  have built : (ofExcept (bucketBuild bs ld es) : Prog Dir Bytes) d = (.ok buf, d) := by
    rw [run]
    rfl
  rw [bucketWrite, bind_ok _ _ built, bind_ok _ _ get_run, if_neg (Nat.not_le.mpr young)]
  refine ⟨_, rfl, ⟨rfl, fun fb other => Function.update_of_ne other _ _⟩, ?_⟩
  dsimp only
  rw [Function.update_self, bucketAt, Option.elim_some, parsed]

theorem bucketWrite_wp (takes : TakesBlocksize bs) {es : List HEntry} {ld : Nat}
    (proper : ∀ e ∈ es, e.Proper)
    (level : ld < 2 ^ 8) (bno : Nat) (d : Dir) :
    wp (bucketWrite bs (1 + bno) ld es) (fun _ d' => Wrote d d' (1 + bno) ∧
      bucketAt bs bno (d'.blocks (1 + bno)) = .ok ⟨es, ld, 1 + bno⟩) Stops d := by
  by_cases fits : BK_HDR + bucketSize es ≤ bs
  · by_cases young : generation (1 + bno) d + 1 < 2 ^ 64
    · obtain ⟨d', run, post⟩ := bucketWrite_run takes es proper level fits young
      exact wp_of_ok run post
    · have header : BK_HDR ≤ bs := by omega
      rw [bucketWrite, wp_bind, wp_ofExcept, bucketBuild_eq header, if_pos fits]
      dsimp only
      rw [wp_bind, wp_get, wp_ite, if_pos (Nat.le_of_not_lt young)]
      exact stops_at (Nat.le_of_not_lt young)
  · have header : BK_HDR ≤ bs := by
      obtain ⟨_, _, large, _⟩ := takes
      exact Nat.le_trans (by decide) large
    rw [bucketWrite, wp_bind, wp_ofExcept, bucketBuild_eq header, if_neg fits]
    exact .inl ⟨_, rfl⟩

end Access

end Dir

section Table

theorem range_pairs {α : Type} (f : Nat → α) (n : Nat) :
    (List.range (2 * n)).map f = (List.range n).flatMap fun i => [f (2 * i), f (2 * i + 1)] := by
  induction n with
  | zero => rfl
  | succ n ih =>
      rw [Nat.mul_succ, List.range_succ, List.range_succ, List.range_succ,
          List.flatMap_append, ← ih]
      simp

theorem double_table (slot : Nat → Nat) (d : Nat) :
    ((List.range (2 ^ d)).map slot).flatMap (fun b => [b, b]) =
    (List.range (2 ^ (d + 1))).map fun i => slot (i / 2) := by
  rw [pow_succ', range_pairs, List.flatMap_map]
  congr 1
  funext i
  rw [Nat.mul_div_cancel_left _ (by decide), Nat.mul_add_div (by decide)]
  rfl

theorem chunks2_pairs {α : Type} (l : List α) (f g : α → Nat) :
    DirHeader.chunks2 (l.flatMap fun i => [f i, g i]) = l.map fun i => (f i, g i) := by
  induction l with
  | nil => rfl
  | cons a rest ih =>
      rw [List.flatMap_cons, List.cons_append, List.cons_append, List.nil_append, DirHeader.chunks2,
          ih, List.map_cons]

theorem chunks2_table (slot : Nat → Nat) (d : Nat) :
    DirHeader.chunks2 ((List.range (2 ^ (d + 1))).map slot) =
    (List.range (2 ^ d)).map fun i => (slot (2 * i), slot (2 * i + 1)) := by
  rw [pow_succ', range_pairs, chunks2_pairs]

theorem split_table (slot : Nat → Nat) (d l b new : Nat) :
    ((List.range (2 ^ d)).map slot).mapIdx (fun idx c => if c = b ∧
    (idx >>> (d - 1 - l)) &&& 1 = 1 then new else c) =
      (List.range (2 ^ d)).map (ExtHash.split d l b new slot) := by
  apply List.ext_getElem
  · simp
  · intro i _ _
    have shift : d - 1 - l = d - (l + 1) := by omega
    simp only [List.getElem_mapIdx, List.getElem_map, List.getElem_range, ExtHash.split,
        ExtHash.pre,
      Nat.and_one_is_mod, Nat.shiftRight_eq_div_pow, shift]

theorem merge_table (slot : Nat → Nat) (d b b2 : Nat) :
    ((List.range (2 ^ d)).map slot).map (fun c => if c = b2 then b else c) =
      (List.range (2 ^ d)).map (ExtHash.merge b b2 slot) := by
  rw [List.map_map]
  rfl

theorem bucketIndex_eq (h d : Nat) (inside : h < 2 ^ 64) :
    bucketIndex h d = ExtHash.pre 64 d h := by
  rw [bucketIndex, ExtHash.pre]
  split
  · rename_i zero
    rw [zero, Nat.sub_zero, Nat.div_eq_of_lt inside]
  · exact Nat.shiftRight_eq_div_pow _ _

theorem bit_eq {l : Nat} (small : l ≤ 63) (h : Nat) :
    (h &&& 1 <<< (63 - l) == 0) = !decide (ExtHash.pre 64 (l + 1) h % 2 = 1) := by
  have shift : 64 - (l + 1) = 63 - l := by omega
  rw [Nat.one_shiftLeft, Nat.and_two_pow, ExtHash.pre, shift, ← Nat.testBit_eq_decide_div_mod_eq]
  cases Nat.testBit h (63 - l) <;> simp

end Table

section TableShape

/-- An entry with the hash of its name. -/
def NamedEntry.keyed (hash : String → UInt64) (e : NamedEntry) : HEntry :=
  e.hashed (hash e.name).toNat

/-- What the buckets `live` hold together. -/
def held (live : Finset Nat) (bucket : Nat → Bucket) : Multiset HEntry :=
  ∑ b ∈ live, ((bucket b).entries : Multiset HEntry)

/-- The table refers to each live bucket from the slots of its prefix, the other buckets are on the
freelist, and the entries `M` are each in the bucket of their hash. -/
structure TableShape (hash : String → UInt64) (M : Multiset NamedEntry) (x : DirHeader)
    (slot : Nat → Nat)
    (bucket : Nat → Bucket) : Prop where
  table : x.table = (List.range (2 ^ x.depth)).map slot
  depth : x.depth ≤ MAX_DEPTH
  count : x.nbuckets ≤ 2 ^ MAX_DEPTH
  owns : ExtHash.Owns x.depth slot fun b => (bucket b).ld
  parts : ∀ b, b < x.nbuckets ↔ b ∈ ExtHash.live x.depth slot ∨ b ∈ x.freelist
  apart : ∀ b ∈ ExtHash.live x.depth slot, b ∉ x.freelist
  nodup : x.freelist.Nodup
  placed : ∀ b ∈ ExtHash.live x.depth slot, ∀ e ∈ (bucket b).entries,
      ExtHash.owner 64 x.depth slot e.hash = b
  content : held (ExtHash.live x.depth slot) bucket = M.map (NamedEntry.keyed hash)
  proper : ∀ e ∈ M, e.Proper
  freed : ∀ b ∈ x.freelist, (bucket b).entries = []

theorem held_erase {live : Finset Nat} {b : Nat} (member : b ∈ live) (bucket : Nat → Bucket) :
    held live bucket = (bucket b).entries + held (live.erase b) bucket :=
  (Finset.add_sum_erase live (fun b => ((bucket b).entries : Multiset HEntry)) member).symm

theorem held_congr {live : Finset Nat} {bucket bucket' : Nat → Bucket}
    (same : ∀ b ∈ live, (bucket' b).entries = (bucket b).entries) :
    held live bucket' = held live bucket :=
  Finset.sum_congr rfl fun b member => by rw [same b member]

theorem mem_held {live : Finset Nat} {bucket : Nat → Bucket} {e : HEntry} :
    e ∈ held live bucket ↔ ∃ b ∈ live, e ∈ (bucket b).entries := by
  rw [held, Multiset.mem_sum]
  rfl

theorem hash_lt (hash : String → UInt64) (name : String) : (hash name).toNat < 2 ^ 64 :=
  (hash name).toNat_lt

theorem NamedEntry.Proper.keyed {e : NamedEntry} (proper : e.Proper) (hash : String → UInt64) :
    (e.keyed hash).Proper :=
  ⟨proper.some, proper.ino, hash_lt hash e.name, proper.ftype, proper.name, proper.length⟩

namespace TableShape

variable {hash : String → UInt64} {M : Multiset NamedEntry} {x : DirHeader} {slot : Nat → Nat}
    {bucket : Nat → Bucket}

theorem live_lt (shape : TableShape hash M x slot bucket) {b : Nat}
    (member : b ∈ ExtHash.live x.depth slot) :
    b < x.nbuckets := (shape.parts b).mpr (Or.inl member)

theorem free_lt (shape : TableShape hash M x slot bucket) {b : Nat} (member : b ∈ x.freelist) :
    b < x.nbuckets :=
  (shape.parts b).mpr (Or.inr member)

theorem depth_lt (shape : TableShape hash M x slot bucket) : x.depth < 64 :=
  Nat.lt_of_le_of_lt shape.depth (by decide)

theorem short (shape : TableShape hash M x slot bucket) : x.freelist.length < 2 ^ 16 := by
  have inside : x.freelist.toFinset ⊆ Finset.range x.nbuckets := by
    intro b member
    exact Finset.mem_range.mpr (shape.free_lt (List.mem_toFinset.mp member))
  calc
    x.freelist.length = x.freelist.toFinset.card := (List.toFinset_card_of_nodup shape.nodup).symm
    _ ≤ x.nbuckets := (Finset.card_le_card inside).trans_eq (Finset.card_range _)
    _ ≤ 2 ^ MAX_DEPTH := shape.count
    _ < 2 ^ 16 := by decide

theorem header (shape : TableShape hash M x slot bucket) : x.Proper := by
  have bound : x.nbuckets < 2 ^ 32 := Nat.lt_of_le_of_lt shape.count (by decide)
  refine ⟨shape.depth, ?_, bound, ?_, fun b member => (shape.free_lt member).trans bound,
      shape.short⟩
  · rw [shape.table, List.length_map, List.length_range]
  · intro b member
    rw [shape.table] at member
    obtain ⟨i, hi, rfl⟩ := List.mem_map.mp member
    exact (shape.live_lt (ExtHash.slot_live slot (List.mem_range.mp hi))).trans bound

theorem stored_proper (shape : TableShape hash M x slot bucket) {b : Nat}
    (inside : b < x.nbuckets) :
    ∀ e ∈ (bucket b).entries, ∃ ne ∈ M, ne.keyed hash = e := by
  intro e member
  rcases (shape.parts b).mp inside with live | free
  · have all : e ∈ held (ExtHash.live x.depth slot) bucket := mem_held.mpr ⟨b, live, member⟩
    rw [shape.content] at all
    exact Multiset.mem_map.mp all
  · rw [shape.freed b free] at member
    cases member

theorem bucket_proper (shape : TableShape hash M x slot bucket) {b : Nat}
    (inside : b < x.nbuckets) :
    ∀ e ∈ (bucket b).entries, e.Proper := by
  intro e member
  obtain ⟨ne, known, rfl⟩ := shape.stored_proper inside e member
  exact (shape.proper ne known).keyed hash

theorem replace (shape : TableShape hash M x slot bucket) {M' : Multiset NamedEntry} {b : Nat}
    (member : b ∈ ExtHash.live x.depth slot) {es : List HEntry} (blk : Nat)
    (placed : ∀ e ∈ es, ExtHash.owner 64 x.depth slot e.hash = b)
    (sum : (es : Multiset HEntry) + M.map (NamedEntry.keyed hash) =
      (bucket b).entries + M'.map (NamedEntry.keyed hash)) (proper : ∀ e ∈ M', e.Proper) :
    TableShape hash M' x slot (Function.update bucket b ⟨es, (bucket b).ld, blk⟩) := by
  have level : ∀ c, (Function.update bucket b ⟨es, (bucket b).ld, blk⟩ c).ld = (bucket c).ld := by
    intro c
    by_cases here : c = b
    · rw [here, Function.update_self]
    · rw [Function.update_of_ne here]
  refine { shape with owns := ?_, placed := ?_, content := ?_, proper, freed := ?_ }
  · exact shape.owns.congr (fun _ _ => rfl) fun i _ => level _
  · intro c live e inside
    by_cases here : c = b
    · rw [here, Function.update_self] at inside
      rw [here]
      exact placed e inside
    · rw [Function.update_of_ne here] at inside
      exact shape.placed c live e inside
  · have before := shape.content
    rw [held_erase member] at before ⊢
    rw [@held_congr _ bucket _
        fun c other => by rw [Function.update_of_ne (Finset.ne_of_mem_erase other)],
      Function.update_self]
    rw [← before, add_left_comm] at sum
    exact add_left_cancel sum
  · intro c free
    have other : c ≠ b := fun same => shape.apart b member (same ▸ free)
    rw [Function.update_of_ne other]
    exact shape.freed c free

theorem double (shape : TableShape hash M x slot bucket) (room : x.depth < MAX_DEPTH) :
    TableShape hash M x.doubled (fun i => slot (i / 2)) bucket := by
  have live : ExtHash.live x.doubled.depth (fun i => slot (i / 2)) = ExtHash.live x.depth slot :=
    ExtHash.live_double x.depth slot
  refine ⟨?table, room, shape.count, shape.owns.double, ?parts, ?apart, shape.nodup, ?placed,
      ?content, shape.proper,
    shape.freed⟩
  · show x.table.flatMap _ = _
    rw [shape.table, double_table]
    rfl
  · rw [live]
    exact shape.parts
  · rw [live]
    exact shape.apart
  · rw [live]
    intro b member e inside
    rw [DirHeader.doubled, ExtHash.owner_double shape.depth_lt]
    exact shape.placed b member e inside
  · rw [live]
    exact shape.content

theorem freelist_next (x : DirHeader) : (x.freelist = [] ∧ x.newBno = x.nbuckets ∧
    x.newCount = x.nbuckets + 1) ∨
    (x.freelist = x.freelist.dropLast ++ [x.newBno] ∧ x.newCount = x.nbuckets) := by
  rw [DirHeader.newBno, DirHeader.newCount]
  rcases List.eq_nil_or_concat x.freelist with none | some
  · rw [none]
    exact Or.inl ⟨rfl, rfl, rfl⟩
  · obtain ⟨rest, last, eq⟩ := some
    rw [eq]
    exact Or.inr (by simp)

theorem newBno_fresh (shape : TableShape hash M x slot bucket) :
    x.newBno ∉ ExtHash.live x.depth slot := by
  intro member
  rcases freelist_next x with grown | again
  · have inside := shape.live_lt member
    omega
  · apply shape.apart _ member
    rw [again.1]
    exact List.mem_append_right _ (List.mem_singleton.mpr rfl)

theorem newCount_lt (shape : TableShape hash M x slot bucket) : x.newCount < 2 ^ 32 := by
  have count := shape.count
  rw [MAX_DEPTH] at count
  rcases freelist_next x with grown | again
  · omega
  · omega

theorem newBno_not_left (shape : TableShape hash M x slot bucket) :
    x.newBno ∉ x.freelist.dropLast := by
  intro free
  rcases freelist_next x with grown | again
  · rw [grown.1] at free
    cases free
  · have nodup := shape.nodup
    rw [again.1] at nodup
    exact (List.nodup_append.mp nodup).2.2 x.newBno free x.newBno (List.mem_singleton.mpr rfl) rfl

theorem newCount_parts (shape : TableShape hash M x slot bucket) (c : Nat) :
    c < x.newCount ↔ c ∈ insert x.newBno (ExtHash.live x.depth slot) ∨ c ∈ x.freelist.dropLast := by
  have known := shape.parts c
  rw [Finset.mem_insert]
  rcases freelist_next x with grown | again
  · rw [grown.1] at known ⊢
    have none : c ∉ ([] : List Nat).dropLast := List.not_mem_nil
    have none' : c ∉ ([] : List Nat) := List.not_mem_nil
    have split : c < x.nbuckets + 1 ↔ c = x.nbuckets ∨ c < x.nbuckets := by omega
    rw [grown.2.2, grown.2.1, split, known]
    tauto
  · rw [again.1, List.mem_append, List.mem_singleton] at known
    rw [again.2, known]
    tauto

/-- With no freed bucket left, all buckets are in the table. -/
theorem newCount_le (shape : TableShape hash M x slot bucket) {slot' : Nat → Nat}
    (live : ExtHash.live x.depth slot' = insert x.newBno (ExtHash.live x.depth slot)) :
    x.newCount ≤ 2 ^ MAX_DEPTH := by
  rcases freelist_next x with grown | again
  · have all : Finset.range x.newCount ⊆ ExtHash.live x.depth slot' := by
      intro c inside
      rcases (shape.newCount_parts c).mp (Finset.mem_range.mp inside) with used | free
      · rw [live]
        exact used
      · rw [grown.1] at free
        cases free
    calc
      x.newCount = (Finset.range x.newCount).card := (Finset.card_range _).symm
      _ ≤ (ExtHash.live x.depth slot').card := Finset.card_le_card all
      _ ≤ 2 ^ x.depth := ExtHash.live_card_le _ _
      _ ≤ 2 ^ MAX_DEPTH := Nat.pow_le_pow_right (by decide) shape.depth
  · rw [again.2]
    exact shape.count

theorem partition_bit {es stay go : List HEntry} {l : Nat} (small : l ≤ 63)
    (parts : es.partition (fun e => e.hash &&& 1 <<< (63 - l) == 0) = (stay, go)) :
    stay = es.filter (fun e => !decide (ExtHash.pre 64 (l + 1) e.hash % 2 = 1)) ∧
      go = es.filter (fun e => decide (ExtHash.pre 64 (l + 1) e.hash % 2 = 1)) := by
  rw [List.partition_eq_filter_filter] at parts
  cases parts
  constructor
  · exact congrArg (fun p => List.filter p _) (funext fun e => bit_eq small e.hash)
  · exact congrArg (fun p => List.filter p _)
      (funext fun e => by rw [Function.comp_apply, bit_eq small, Bool.not_not])

theorem placed_split (shape : TableShape hash M x slot bucket) {k l : Nat}
    (member : slot k ∈ ExtHash.live x.depth slot) (room : l < x.depth)
    {bucket' : Nat → Bucket} {stay go : List HEntry}
    (stays : stay = (bucket (slot k)).entries.filter
      fun e => !decide (ExtHash.pre 64 (l + 1) e.hash % 2 = 1))
    (goes : go = (bucket (slot k)).entries.filter
      fun e => decide (ExtHash.pre 64 (l + 1) e.hash % 2 = 1))
    (low : (bucket' (slot k)).entries = stay) (high : (bucket' x.newBno).entries = go)
    (rest : ∀ c, c ≠ slot k → c ≠ x.newBno → bucket' c = bucket c) {c : Nat}
    (used : c ∈ insert x.newBno (ExtHash.live x.depth slot)) {e : HEntry}
    (inside : e ∈ (bucket' c).entries) :
    ExtHash.owner 64 x.depth (ExtHash.split x.depth l (slot k) x.newBno slot) e.hash = c := by
  rw [ExtHash.owner_split (Nat.le_of_lt shape.depth_lt) room (slot k) x.newBno slot]
  by_cases new : c = x.newBno
  · rw [new, high, goes] at inside
    have pair := List.mem_filter.mp inside
    rw [new, if_pos ⟨shape.placed _ member e pair.1, of_decide_eq_true pair.2⟩]
  · by_cases here : c = slot k
    · rw [here, low, stays] at inside
      have pair := List.mem_filter.mp inside
      have clear : ¬ ExtHash.pre 64 (l + 1) e.hash % 2 = 1 := by simpa using pair.2
      rw [if_neg fun both => clear both.2, here]
      exact shape.placed _ member e pair.1
    · rw [rest c here new] at inside
      have old := (Finset.mem_insert.mp used).resolve_left new
      have place := shape.placed c old e inside
      rw [if_neg fun both => here (place.symm.trans both.1), place]

theorem held_split (shape : TableShape hash M x slot bucket) {k : Nat}
    (member : slot k ∈ ExtHash.live x.depth slot) {bucket' : Nat → Bucket}
    {stay go : List HEntry}
    (halves : (go : Multiset HEntry) + stay = ((bucket (slot k)).entries : Multiset HEntry))
    (low : (bucket' (slot k)).entries = stay) (high : (bucket' x.newBno).entries = go)
    (rest : ∀ c, c ≠ slot k → c ≠ x.newBno → bucket' c = bucket c) :
    FiveFs.held (insert x.newBno (ExtHash.live x.depth slot)) bucket' =
      FiveFs.held (ExtHash.live x.depth slot) bucket := by
  have fresh := shape.newBno_fresh
  have others : ∀ c ∈ (ExtHash.live x.depth slot).erase (slot k),
      (bucket' c).entries = (bucket c).entries := by
    intro c other
    rw [rest c (Finset.ne_of_mem_erase other) fun same =>
      fresh (same ▸ Finset.mem_of_mem_erase other)]
  rw [FiveFs.held, Finset.sum_insert fresh, ← FiveFs.held, held_erase member, held_congr others,
    high, low, ← add_assoc, halves, ← held_erase member]

/-- A bucket of the slot `k` is split by the next bit of the hashes. -/
theorem split (shape : TableShape hash M x slot bucket) {k l : Nat} (hk : k < 2 ^ x.depth)
    (level : (bucket (slot k)).ld = l)
    (room : l < x.depth) {stay go : List HEntry} (blk blk2 : Nat)
    (parts : (bucket (slot k)).entries.partition
    (fun e => e.hash &&& 1 <<< (63 - l) == 0) = (stay, go)) :
    TableShape hash M (x.splitAt l (slot k)) (ExtHash.split x.depth l (slot k) x.newBno slot)
      (Function.update (Function.update bucket (slot k) ⟨stay, l + 1, blk⟩) x.newBno
      ⟨go, l + 1, blk2⟩) := by
  have member := ExtHash.slot_live slot hk
  have fresh := shape.newBno_fresh
  have unused : ∀ i < 2 ^ x.depth, slot i ≠ x.newBno :=
      fun i hi same => fresh (same ▸ ExtHash.slot_live slot hi)
  have apart : slot k ≠ x.newBno := unused k hk
  have live : ExtHash.live x.depth (ExtHash.split x.depth l (slot k) x.newBno slot) =
      insert x.newBno (ExtHash.live x.depth slot) := by
    subst level
    exact shape.owns.live_split hk room unused
  have high : (Function.update (Function.update bucket (slot k) ⟨stay, l + 1, blk⟩) x.newBno
      ⟨go, l + 1, blk2⟩) x.newBno =
      ⟨go, l + 1, blk2⟩ := Function.update_self ..
  have low : (Function.update (Function.update bucket (slot k) ⟨stay, l + 1, blk⟩) x.newBno
      ⟨go, l + 1, blk2⟩) (slot k) =
      ⟨stay, l + 1, blk⟩ := by rw [Function.update_of_ne apart, Function.update_self]
  have rest : ∀ c, c ≠ slot k → c ≠ x.newBno →
      (Function.update (Function.update bucket (slot k) ⟨stay, l + 1, blk⟩) x.newBno
      ⟨go, l + 1, blk2⟩) c = bucket c := by
    intro c other new
    rw [Function.update_of_ne new, Function.update_of_ne other]
  generalize Function.update (Function.update bucket (slot k) ⟨stay, l + 1, blk⟩) x.newBno
      ⟨go, l + 1, blk2⟩ = bucket' at *
  have small : l ≤ 63 := by
    have depth := shape.depth_lt
    omega
  have bits := partition_bit small parts
  refine ⟨?table, shape.depth, ?count, ?owns, ?parts, ?apart, ?nodup, ?placed, ?content,
      shape.proper, ?freed⟩
  case table =>
    show x.table.mapIdx _ = _
    rw [shape.table, split_table]
    rfl
  case count => exact shape.newCount_le live
  case owns =>
    subst level
    exact shape.owns.split hk room unused (by rw [low]) (by rw [high])
        fun c other new => by rw [rest c other new]
  case parts =>
    intro c
    have number := shape.newCount_parts c
    rw [← live] at number
    exact number
  case apart =>
    intro c used free
    have member' : c ∈ insert x.newBno (ExtHash.live x.depth slot) := live ▸ used
    have freed : c ∈ x.freelist.dropLast := free
    rcases Finset.mem_insert.mp member' with new | old
    · exact shape.newBno_not_left (new ▸ freed)
    · exact shape.apart c old (List.mem_of_mem_dropLast freed)
  case nodup => exact shape.nodup.sublist (List.dropLast_sublist _)
  case placed =>
    intro c used e inside
    exact shape.placed_split member room bits.1 bits.2 (by rw [low]) (by rw [high]) rest
      (live ▸ used) inside
  case content =>
    have halves : (go : Multiset HEntry) + stay =
        ((bucket (slot k)).entries : Multiset HEntry) := by
      rw [bits.1, bits.2, Multiset.coe_add, Multiset.coe_eq_coe]
      exact List.filter_append_perm _ _
    show FiveFs.held (ExtHash.live x.depth _) _ = _
    rw [live, shape.held_split member halves (by rw [low]) (by rw [high]) rest]
    exact shape.content
  case freed =>
    intro c free
    have old : c ∈ x.freelist := List.mem_of_mem_dropLast free
    have other : c ≠ slot k := fun same => shape.apart _ member (same ▸ old)
    have new : c ≠ x.newBno := by
      intro same
      have freed : c ∈ x.freelist.dropLast := free
      exact shape.newBno_not_left (same ▸ freed)
    rw [rest c other new]
    exact shape.freed c old

theorem placed_merge (shape : TableShape hash M x slot bucket) {k k2 : Nat}
    (member : slot k ∈ ExtHash.live x.depth slot) (member2 : slot k2 ∈ ExtHash.live x.depth slot)
    (apart : slot k ≠ slot k2) {bucket' : Nat → Bucket}
    (first : (bucket' (slot k)).entries = (bucket (slot k)).entries ++ (bucket (slot k2)).entries)
    (rest : ∀ c, c ≠ slot k → c ≠ slot k2 → bucket' c = bucket c) {c : Nat}
    (used : c ∈ (ExtHash.live x.depth slot).erase (slot k2)) {e : HEntry}
    (inside : e ∈ (bucket' c).entries) :
    ExtHash.owner 64 x.depth (ExtHash.merge (slot k) (slot k2) slot) e.hash = c := by
  have other2 := Finset.ne_of_mem_erase used
  rw [ExtHash.owner_merge]
  by_cases here : c = slot k
  · rw [here, first] at inside
    rcases List.mem_append.mp inside with one | two
    · rw [shape.placed _ member e one, if_neg apart, here]
    · rw [shape.placed _ member2 e two, if_pos rfl, here]
  · rw [rest c here other2] at inside
    rw [shape.placed c (Finset.mem_of_mem_erase used) e inside, if_neg other2]

theorem held_merge {live : Finset Nat} {b b2 : Nat} (member : b ∈ live) (member2 : b2 ∈ live)
    (apart : b ≠ b2) {bucket' : Nat → Bucket}
    (first : (bucket' b).entries = (bucket b).entries ++ (bucket b2).entries)
    (rest : ∀ c, c ≠ b → c ≠ b2 → bucket' c = bucket c) :
    FiveFs.held (live.erase b2) bucket' = FiveFs.held live bucket := by
  have still : b ∈ live.erase b2 := Finset.mem_erase.mpr ⟨apart, member⟩
  have others : ∀ c ∈ (live.erase b2).erase b, (bucket' c).entries = (bucket c).entries := by
    intro c inside
    have other := Finset.mem_erase.mp inside
    rw [rest c other.1 (Finset.ne_of_mem_erase other.2)]
  rw [held_erase still, held_congr others, first, held_erase member2, held_erase still,
    ← Multiset.coe_add, add_comm ((bucket b).entries : Multiset HEntry), add_assoc]

/-- The buckets of the buddy slots `k` and `k2` become the first of them. -/
theorem merge (shape : TableShape hash M x slot bucket) {k k2 l : Nat} (hk : k < 2 ^ x.depth)
    (hk2 : k2 < 2 ^ x.depth)
    (level : (bucket (slot k)).ld = l) (level2 : (bucket (slot k2)).ld = l) (some : 0 < l)
    (buddy : ExtHash.pre x.depth l k2 = ExtHash.pre x.depth l k ^^^ 1) (apart : slot k ≠ slot k2)
    (blk blk2 : Nat) :
    TableShape hash M (x.mergeAt (slot k) (slot k2)) (ExtHash.merge (slot k) (slot k2) slot)
      (Function.update (Function.update bucket (slot k)
        ⟨(bucket (slot k)).entries ++ (bucket (slot k2)).entries, l - 1, blk⟩) (slot k2)
        ⟨[], 0, blk2⟩) := by
  have member := ExtHash.slot_live slot hk
  have member2 := ExtHash.slot_live slot hk2
  have live := ExtHash.live_merge slot hk apart
  have second : (Function.update (Function.update bucket (slot k)
      ⟨(bucket (slot k)).entries ++ (bucket (slot k2)).entries, l - 1, blk⟩) (slot k2)
      ⟨[], 0, blk2⟩) (slot k2) =
      ⟨[], 0, blk2⟩ := Function.update_self ..
  have first : (Function.update (Function.update bucket (slot k)
      ⟨(bucket (slot k)).entries ++ (bucket (slot k2)).entries, l - 1, blk⟩) (slot k2)
      ⟨[], 0, blk2⟩) (slot k) =
      ⟨(bucket (slot k)).entries ++ (bucket (slot k2)).entries, l - 1, blk⟩ := by
    rw [Function.update_of_ne apart, Function.update_self]
  have rest : ∀ c, c ≠ slot k → c ≠ slot k2 → (Function.update (Function.update bucket (slot k)
      ⟨(bucket (slot k)).entries ++ (bucket (slot k2)).entries, l - 1, blk⟩) (slot k2)
      ⟨[], 0, blk2⟩) c = bucket c := by
    intro c other other2
    rw [Function.update_of_ne other2, Function.update_of_ne other]
  generalize Function.update (Function.update bucket (slot k)
    ⟨(bucket (slot k)).entries ++ (bucket (slot k2)).entries, l - 1, blk⟩) (slot k2)
    ⟨[], 0, blk2⟩ = bucket' at *
  refine ⟨?table, shape.depth, shape.count, ?owns, ?parts, ?apart, ?nodup, ?placed, ?content,
      shape.proper, ?freed⟩
  case table =>
    show x.table.map _ = _
    rw [shape.table, merge_table]
    rfl
  case owns =>
    subst level
    exact shape.owns.merge hk hk2 some level2 buddy (by rw [first])
        fun c other other2 => by rw [rest c other other2]
  case parts =>
    intro c
    show c < x.nbuckets ↔ c ∈ ExtHash.live x.depth _ ∨ c ∈ x.freelist ++ [slot k2]
    rw [live, Finset.mem_erase, List.mem_append, List.mem_singleton, shape.parts c]
    by_cases here : c = slot k2
    · rw [here]
      tauto
    · tauto
  case apart =>
    intro c used free
    have old : c ∈ (ExtHash.live x.depth slot).erase (slot k2) := live ▸ used
    have free' : c ∈ x.freelist ++ [slot k2] := free
    rcases List.mem_append.mp free' with before | now
    · exact shape.apart c (Finset.mem_of_mem_erase old) before
    · exact Finset.ne_of_mem_erase old (List.mem_singleton.mp now)
  case nodup =>
    show (x.freelist ++ [slot k2]).Nodup
    rw [List.nodup_append]
    refine ⟨shape.nodup, List.nodup_singleton _, fun c before c' now same => ?_⟩
    exact shape.apart _ member2 (List.mem_singleton.mp now ▸ same ▸ before)
  case placed =>
    intro c used e inside
    exact shape.placed_merge member member2 apart (by rw [first]) rest (live ▸ used) inside
  case content =>
    show FiveFs.held (ExtHash.live x.depth _) _ = _
    rw [live, held_merge member member2 apart (by rw [first]) rest]
    exact shape.content
  case freed =>
    intro c free
    have free' : c ∈ x.freelist ++ [slot k2] := free
    rcases List.mem_append.mp free' with before | now
    · rw [rest c (fun same => shape.apart _ member (same ▸ before)) fun same =>
          shape.apart _ member2 (same ▸ before)]
      exact shape.freed c before
    · rw [List.mem_singleton.mp now, second]

theorem halve (shape : TableShape hash M x slot bucket) {d : Nat} (depth : x.depth = d + 1)
    (pairs : ∀ i < 2 ^ d, slot (2 * i) = slot (2 * i + 1)) :
    TableShape hash M x.halved (fun i => slot (2 * i)) bucket := by
  have less : x.depth - 1 = d := by omega
  have live := ExtHash.live_halve pairs
  rw [← depth] at live
  have small : d ≤ MAX_DEPTH := by
    have depth9 := shape.depth
    omega
  rw [DirHeader.halved, less]
  refine ⟨?table, small, shape.count, ?owns, ?parts, ?apart, shape.nodup, ?placed,
    ?content, shape.proper, shape.freed⟩
  case table =>
    show (DirHeader.chunks2 x.table).map _ = _
    rw [shape.table, depth, chunks2_table, List.map_map]
    rfl
  case owns =>
    have owns := shape.owns
    rw [depth] at owns
    exact owns.halve pairs
  case parts =>
    rw [live]
    exact shape.parts
  case apart =>
    rw [live]
    exact shape.apart
  case placed =>
    rw [live]
    intro b member e inside
    obtain ⟨ne, _, rfl⟩ := shape.stored_proper (shape.live_lt member) e inside
    have wide : d < 64 := by
      have depth64 := shape.depth_lt
      omega
    show ExtHash.owner 64 d _ _ = _
    have inside64 : (ne.keyed hash).hash < 2 ^ 64 := hash_lt hash ne.name
    rw [ExtHash.owner_halve wide inside64 pairs, ← depth]
    exact shape.placed b member _ inside
  case content =>
    rw [live]
    exact shape.content

end TableShape

end TableShape

end FiveFs
