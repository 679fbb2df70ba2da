import FiveFs.Rounds
import Mathlib.Data.String.Basic

/-! A directory is a list of named entries: in the order of insertion while it is embedded, sorted
by name once it is hashed. -/

namespace FiveFs

open Buffer Prog

section Names

def Named (es : List NamedEntry) : Prop := (es.map NamedEntry.name).Nodup

def sortNames (es : List NamedEntry) : List NamedEntry :=
  es.mergeSort fun a b => decide (a.name ≤ b.name)

def ByName (es : List NamedEntry) : Prop := es.Pairwise fun a b => a.name ≤ b.name

theorem Named.inj {es : List NamedEntry} (named : Named es) {a b : NamedEntry} (ha : a ∈ es)
    (hb : b ∈ es)
    (same : a.name = b.name) : a = b := List.inj_on_of_nodup_map named ha hb same

theorem Named.cons {es : List NamedEntry} {e : NamedEntry} (named : Named es)
    (new : ∀ e' ∈ es, e'.name ≠ e.name) : Named (e :: es) := by
  rw [Named, List.map_cons, List.nodup_cons]
  refine ⟨fun member => ?_, named⟩
  obtain ⟨e', listed, same⟩ := List.mem_map.mp member
  exact new e' listed same

theorem Named.perm {es es' : List NamedEntry} (named : Named es) (perm : es.Perm es') : Named es' :=
  (perm.map NamedEntry.name).nodup_iff.mp named

theorem sortNames_perm (es : List NamedEntry) : (sortNames es).Perm es := List.mergeSort_perm _ _

theorem sortNames_byName (es : List NamedEntry) : ByName (sortNames es) := by
  have sorted := @List.pairwise_mergeSort _ (fun a b : NamedEntry => decide (a.name ≤ b.name))
    (fun a b c first second => by
      simpa using le_trans (of_decide_eq_true first) (of_decide_eq_true second))
    (fun a b => by simpa using le_total a.name b.name) es
  exact sorted.imp fun h => of_decide_eq_true h

theorem ByName.eq {es es' : List NamedEntry} (sorted : ByName es) (sorted' : ByName es')
    (named : Named es)
    (perm : es.Perm es') : es = es' := by
  refine List.Perm.eq_of_pairwise (fun a b ha hb le ge => ?_) sorted sorted' perm
  exact named.inj ha (perm.symm.subset hb) (le_antisymm le ge)

theorem find_name {es : List NamedEntry} (named : Named es) {e : NamedEntry} (member : e ∈ es)
    {name : String}
    (eq : e.name = name) : es.find? (fun e => e.name == name) = some e := by
  cases found : es.find? fun e => e.name == name with
  | none =>
      have other := List.find?_eq_none.mp found e member
      rw [eq, beq_self_eq_true] at other
      exact absurd rfl other
  | some e' =>
      have same : e'.name = name := by simpa using List.find?_some found
      rw [named.inj (List.mem_of_find?_eq_some found) member (same.trans eq.symm)]

theorem perm_eraseP {α : Type} {p : α → Bool} {l : List α} {a : α} (found : l.find? p = some a) :
    l.Perm (a :: l.eraseP p) := by
  induction l with
  | nil => cases found
  | cons b rest ih =>
      rw [List.find?_cons] at found
      rw [List.eraseP_cons]
      cases here : p b with
      | true =>
          rw [here] at found
          cases found
          exact List.Perm.refl _
      | false =>
          rw [here] at found
          exact ((ih found).cons b).trans (List.Perm.swap a b _)

theorem Named.eraseP {es : List NamedEntry} {name : String} (named : Named es) :
    Named (es.eraseP fun e => e.name == name) :=
    List.Nodup.sublist (List.eraseP_sublist.map _) named

theorem entriesSize_eraseP {es : List NamedEntry} {e : NamedEntry} {name : String}
    (found : es.find? (fun e => e.name == name) = some e) :
    entriesSize (es.eraseP fun e => e.name == name) ≤ entriesSize es := by
  have sum := ((perm_eraseP found).map NamedEntry.need).sum_eq
  rw [List.map_cons, List.sum_cons] at sum
  rw [entriesSize, entriesSize]
  omega

end Names

/-- The entries `es` of a directory, in the order of its listing. -/
inductive DirHolds [Crc32c] (bs : Nat) (hash : String → UInt64) : Dir → List NamedEntry → Prop
  | empty {d : Dir} : d.inode.isDir = true → d.inode.format = FMT_EMPTY →
      (∀ fb, d.blocks fb = none) → DirHolds bs hash d []
  | embedded {d : Dir} {es : List NamedEntry} : d.inode.isDir = true → d.inode.format = FMT_EMBED →
      (∀ fb, d.blocks fb = none) → (∀ e ∈ es, e.Proper) → entriesSize es ≤ INODE_PAYLOAD →
      Named es →
      d.inode.payload = putDir zeros 0 (es.map NamedEntry.coded) → DirHolds bs hash d es
  | hashed {d : Dir} {es : List NamedEntry} : IsHashed bs hash (es : Multiset NamedEntry) d →
      Named es → ByName es →
      DirHolds bs hash d es

theorem HashFormat.not_empty {format : Nat} (hashed : HashFormat format) :
    ¬ format = FMT_EMPTY := by
  rcases hashed with extent | tree
  · rw [extent]
    decide
  · rw [tree]
    decide

theorem HashFormat.not_embed {format : Nat} (hashed : HashFormat format) :
    ¬ format = FMT_EMBED := by
  rcases hashed with extent | tree
  · rw [extent]
    decide
  · rw [tree]
    decide

theorem entry_keyed (hash : String → UInt64) : HEntry.entry ∘ NamedEntry.keyed hash = id := rfl

section Listing

variable [Crc32c] {bs : Nat} {hash : String → UInt64} {M : Multiset NamedEntry} {d : Dir}
    {x : DirHeader}
  {slot : Nat → Nat} {bucket : Nat → Bucket} {es : List NamedEntry}

theorem bucketsList_run (hashed : Hashed bs hash M d x slot bucket) (bnos : List Nat)
    (inside : ∀ b ∈ bnos, b < x.nbuckets) :
    ∃ hs : List HEntry, Dir.bucketsList bs bnos d = (.ok (hs.map HEntry.entry), d) ∧
      (hs : Multiset HEntry) = (bnos.map fun b => ((bucket b).entries : Multiset HEntry)).sum := by
  induction bnos with
  | nil => exact ⟨[], rfl, rfl⟩
  | cons b rest ih =>
      obtain ⟨hs, run, sum⟩ := ih fun c member => inside c (List.mem_cons_of_mem _ member)
      refine ⟨(bucket b).entries ++ hs, ?_, ?_⟩
      · rw [Dir.bucketsList, bind_ok _ _ (hashed.bucketRead (inside b List.mem_cons_self)),
            bind_ok _ _ run, List.map_append]
        rfl
      · rw [List.map_cons, List.sum_cons, ← sum, Multiset.coe_add]

theorem dirList_hashed (hashed : Hashed bs hash M d x slot bucket) :
    ∃ out : List NamedEntry, Dir.dirList bs d = (.ok (sortNames out), d) ∧
    (out : Multiset NamedEntry) = M := by
  have bnos : ((List.range x.nbuckets).filter fun b => !x.freelist.contains b).toFinset =
      ExtHash.live x.depth slot := by
    ext b
    have parts := hashed.shape.parts b
    have apart := hashed.shape.apart b
    simp only [List.mem_toFinset, List.mem_filter, List.mem_range, Bool.not_eq_true',
        List.contains_eq_mem,
      decide_eq_false_iff_not]
    tauto
  obtain ⟨hs, run, sum⟩ := bucketsList_run hashed
      ((List.range x.nbuckets).filter fun b => !x.freelist.contains b)
    fun b member => List.mem_range.mp (List.mem_of_mem_filter member)
  have whole : (hs : Multiset HEntry) = M.map (NamedEntry.keyed hash) := by
    rw [sum, ← hashed.shape.content, held, ← bnos]
    exact (List.sum_toFinset _ ((List.nodup_range).filter _)).symm
  refine ⟨hs.map HEntry.entry, ?_, ?_⟩
  · have fmt : d.inode.format = FMT_EXTENT ∨ d.inode.format = FMT_TREE := hashed.format
    rw [Dir.dirList, bind_ok _ _ get_run, hashed.isDir, if_neg (by decide),
        if_neg hashed.format.not_empty,
      if_neg hashed.format.not_embed, if_pos fmt, bind_ok _ _ hashed.dhdrRead, bind_ok _ _ run]
    rfl
  · rw [← Multiset.map_coe, whole, Multiset.map_map, entry_keyed, Multiset.map_id]

theorem DirHolds.isDir (holds : DirHolds bs hash d es) : d.inode.isDir = true := by
  cases holds with
  | empty isDir => exact isDir
  | embedded isDir => exact isDir
  | hashed inv =>
      obtain ⟨_, _, _, hashed⟩ := inv
      exact hashed.isDir

theorem DirHolds.named (holds : DirHolds bs hash d es) : Named es := by
  cases holds with
  | empty => exact List.nodup_nil
  | embedded _ _ _ _ _ named => exact named
  | hashed _ named => exact named

theorem DirHolds.proper (holds : DirHolds bs hash d es) : ∀ e ∈ es, e.Proper := by
  cases holds with
  | empty => exact fun e member => absurd member List.not_mem_nil
  | embedded _ _ _ proper => exact proper
  | hashed inv =>
      obtain ⟨_, _, _, hashed⟩ := inv
      exact hashed.shape.proper

theorem DirHolds.dirList (holds : DirHolds bs hash d es) : Dir.dirList bs d = (.ok es, d) := by
  cases holds with
  | empty isDir format =>
      rw [Dir.dirList, bind_ok _ _ get_run, isDir, if_neg (by decide), if_pos format]
      rfl
  | embedded isDir format _ proper room _ payload =>
      rw [Dir.dirList, bind_ok _ _ get_run, isDir, if_neg (by decide),
          if_neg (by rw [format]; decide), if_pos format,
        payload, dirParseNamed_putDir proper room]
      rfl
  | hashed inv named sorted =>
      obtain ⟨_, _, _, hashed⟩ := inv
      obtain ⟨out, run, all⟩ := dirList_hashed hashed
      have perm : out.Perm es := Multiset.coe_eq_coe.mp all
      rw [run, (sortNames_byName out).eq sorted (named.perm
          (perm.symm.trans (sortNames_perm out).symm))
        ((sortNames_perm out).trans perm)]

theorem find_hashed (hashed : Hashed bs hash (es : Multiset NamedEntry) d x slot bucket)
    (named : Named es) (name : String) :
    (bucket (ExtHash.owner 64 x.depth slot (hash name).toNat)).entries.find?
      (fun e => e.hash == (hash name).toNat && e.name == name) =
      (es.find? fun e => e.name == name).map (NamedEntry.keyed hash) := by
  have hi : ExtHash.pre 64 x.depth (hash name).toNat < 2 ^ x.depth :=
    ExtHash.pre_lt (Nat.le_of_lt hashed.shape.depth_lt) (hash_lt hash name)
  have inside : ExtHash.owner 64 x.depth slot (hash name).toNat < x.nbuckets := hashed.slot_lt hi
  have known : ∀ e ∈ (bucket (ExtHash.owner 64 x.depth slot (hash name).toNat)).entries,
      (e.hash == (hash name).toNat && e.name == name) = true → ∃ ne ∈ es, ne.keyed hash = e ∧
      ne.name = name := by
    intro e member eq
    obtain ⟨ne, listed, rfl⟩ := hashed.shape.stored_proper inside e member
    have both : (ne.keyed hash).hash = (hash name).toNat ∧ (ne.keyed hash).name = name := by
      simpa using eq
    exact ⟨ne, listed, rfl, both.2⟩
  cases found : es.find? fun e => e.name == name with
  | none =>
      apply List.find?_eq_none.mpr
      intro e member eq
      obtain ⟨ne, listed, _, same⟩ := known e member eq
      have other := List.find?_eq_none.mp found ne listed
      rw [same, beq_self_eq_true] at other
      exact other rfl
  | some ne =>
      have listed := List.mem_of_find?_eq_some found
      have same : ne.name = name := by simpa using List.find?_some found
      have stored : ne.keyed hash ∈ held (ExtHash.live x.depth slot) bucket := by
        rw [hashed.shape.content]
        exact Multiset.mem_map_of_mem _ listed
      obtain ⟨b, live, member⟩ := mem_held.mp stored
      have place := hashed.shape.placed b live _ member
      have here : (ne.keyed hash).hash = (hash name).toNat := by rw [← same]; rfl
      rw [here] at place
      rw [← place] at member
      cases search : (bucket (ExtHash.owner 64 x.depth slot (hash name).toNat)).entries.find?
          (fun e => e.hash == (hash name).toNat && e.name == name) with
      | none =>
          have other := List.find?_eq_none.mp search _ member
          have yes : ((ne.keyed hash).hash == (hash name).toNat && (ne.keyed hash).name == name) =
              true := by
            rw [here, beq_self_eq_true, Bool.true_and, beq_iff_eq]
            exact same
          exact absurd yes other
      | some e =>
          have hits := List.find?_some search
          obtain ⟨ne', listed', rfl, same'⟩ := known e (List.mem_of_find?_eq_some search) hits
          rw [named.inj listed' listed (same'.trans same.symm)]
          rfl

theorem Hashed.table_run (hashed : Hashed bs hash M d x slot bucket) (name : String) :
    Dir.tableAt x (bucketIndex (hash name).toNat x.depth) d =
      (.ok (ExtHash.owner 64 x.depth slot (hash name).toNat), d) := by
  rw [bucketIndex_eq _ _ (hash_lt hash name)]
  exact hashed.tableAt (ExtHash.pre_lt (Nat.le_of_lt hashed.shape.depth_lt) (hash_lt hash name))

theorem Hashed.owner_live (hashed : Hashed bs hash M d x slot bucket) (name : String) :
    ExtHash.owner 64 x.depth slot (hash name).toNat ∈ ExtHash.live x.depth slot :=
  ExtHash.slot_live slot (ExtHash.pre_lt (Nat.le_of_lt hashed.shape.depth_lt) (hash_lt hash name))

theorem DirHolds.dirFind (holds : DirHolds bs hash d es) (name : String) :
    Dir.dirFind bs hash name d = (.ok (es.find? fun e => e.name == name), d) := by
  cases holds with
  | empty isDir format =>
      rw [Dir.dirFind, bind_ok _ _ get_run, isDir, if_neg (by decide), if_pos format]
      rfl
  | embedded isDir format _ proper room _ payload =>
      rw [Dir.dirFind, bind_ok _ _ get_run, isDir, if_neg (by decide),
          if_neg (by rw [format]; decide), if_pos format,
        payload, dirParseNamed_putDir proper room]
      rfl
  | hashed inv named sorted =>
      obtain ⟨x, slot, bucket, hashed⟩ := inv
      have fmt : d.inode.format = FMT_EXTENT ∨ d.inode.format = FMT_TREE := hashed.format
      rw [Dir.dirFind, bind_ok _ _ get_run, hashed.isDir, if_neg (by decide),
          if_neg hashed.format.not_empty,
        if_neg hashed.format.not_embed, if_pos fmt, bind_ok _ _ hashed.dhdrRead,
        bind_ok _ _ (hashed.table_run name),
        bind_ok _ _ (hashed.bucketRead (hashed.shape.live_lt (hashed.owner_live name))),
        find_hashed hashed named name,
        Option.map_map, entry_keyed, Option.map_id]
      rfl

end Listing

theorem shape_single (hash : String → UInt64) :
    TableShape hash 0 ⟨0, 1, [0], 0, []⟩ (fun _ => 0) fun _ => ⟨[], 0, 1⟩ := by
  have live : ExtHash.live 0 (fun _ => 0) = {0} := rfl
  refine ⟨rfl, Nat.zero_le _, by decide, ExtHash.Owns.single 0 rfl, fun b => ?_,
      fun b _ => List.not_mem_nil,
    List.nodup_nil, fun b _ e member => ?_, ?_, fun e member => ?_, fun b _ => rfl⟩
  · dsimp only
    rw [live, Finset.mem_singleton]
    simp only [List.not_mem_nil, or_false]
    omega
  · cases member
  · dsimp only
    rw [live, held, Finset.sum_singleton]
    rfl
  · exact absurd member (Multiset.notMem_zero e)

/-- The listing after an insertion: at the end while the entry fits the inode payload, by name
otherwise. -/
def inserted (d : Dir) (es : List NamedEntry) (e : NamedEntry) : List NamedEntry :=
  if HashFormat d.inode.format ∨ entriesSize es + e.need > INODE_PAYLOAD then sortNames
  (e :: es) else es ++ [e]

theorem inserted_perm (d : Dir) (es : List NamedEntry) (e : NamedEntry) :
    (inserted d es e).Perm (e :: es) := by
  rw [inserted]
  split
  · exact sortNames_perm _
  · exact List.perm_append_singleton e es

section Insert

variable [Crc32c] {bs : Nat} {hash : String → UInt64} {M : Multiset NamedEntry} {d : Dir}
    {es : List NamedEntry}

theorem insertAll_wp (takes : TakesBlocksize bs) (space : Space) (fuel : Nat) (es : List NamedEntry)
    (proper : ∀ e ∈ es, e.Proper) {M : Multiset NamedEntry} {d : Dir} (inv : IsHashed bs hash M d) :
    wp (Dir.insertAll bs hash space fuel es) (fun _ d' => IsHashed bs hash (M + es) d') (Ends fuel)
    d := by
  induction es generalizing M d with
  | nil =>
      rw [Dir.insertAll, wp_pure, Multiset.coe_nil, add_zero]
      exact inv
  | cons e rest ih =>
      rw [Dir.insertAll, wp_bind]
      refine wp_mono (hashedInsert_wp takes space (proper e List.mem_cons_self) fuel inv)
          (fun _ d' next => ?_)
        fun _ _ => id
      refine wp_mono (ih (fun e' member => proper e' (List.mem_cons_of_mem _ member)) next)
          (fun _ d'' all => ?_)
        fun _ _ => id
      rwa [← Multiset.cons_coe, Multiset.add_cons, ← Multiset.cons_add]

theorem dirToHashed_wp (takes : TakesBlocksize bs) (space : Space) (fuel : Nat)
    (isDir : d.inode.isDir = true)
    (clear : ∀ fb, d.blocks fb = none) (old : dirParseNamed d.inode.payload = es)
    (proper : ∀ e ∈ es, e.Proper) :
    wp (Dir.dirToHashed bs hash space fuel) (fun _ d' =>
    IsHashed bs hash (es : Multiset NamedEntry) d')
      (Ends fuel) d := by
  have stops : ∀ e d, Stops e d → Ends fuel e d := fun _ _ stop _ => stop
  have shape := shape_single hash
  rw [Dir.dirToHashed, wp_bind, wp_get, wp_bind, wp_modify, wp_bind]
  refine wp_mono (Dir.dirBlockEnsure_wp space 0 _) (fun hblk d₁ post₁ => ?_) stops
  obtain ⟨rfl, touched₁, format₁⟩ := post₁
  rw [wp_bind]
  refine wp_mono (Dir.dirBlockEnsure_wp space 1 _) (fun bblk d₂ post₂ => ?_) stops
  obtain ⟨rfl, touched₂, _⟩ := post₂
  rw [wp_bind]
  refine wp_mono (Dir.dhdrWrite_wp shape.header rfl d₂) (fun _ d₃ post₃ => ?_) stops
  obtain ⟨wrote₃, read₃⟩ := post₃
  rw [wp_bind]
  refine wp_mono (Dir.bucketWrite_wp takes (fun e member => absurd member List.not_mem_nil)
      (by decide) 0 d₃)
    (fun _ d₄ post₄ => ?_) stops
  obtain ⟨wrote₄, read₄⟩ := post₄
  rw [wp_bind, wp_modify, old]
  have inode : d₄.inode = d₂.inode := by rw [wrote₄.inode, wrote₃.inode]
  have start : IsHashed bs hash 0 { d₄ with inode := { d₄.inode with size := 2 * bs } } := by
    refine ⟨_, _, _, ?_, ?_, ?_, fun b inside => ?_, shape⟩
    · show d₄.inode.isDir = true
      rw [inode, touched₂.isDir, touched₁.isDir]
      exact isDir
    · show HashFormat d₄.inode.format
      rw [inode]
      exact touched₂.format (format₁ (clear 0))
    · show Dir.headerAt bs (d₄.blocks 0) = _
      rw [wrote₄.others 0 (by decide)]
      exact read₃
    · have zero : b = 0 := by
        dsimp only at inside
        omega
      subst zero
      exact read₄
  have all := insertAll_wp takes space fuel es proper start
  rwa [zero_add] at all

theorem holds_sorted {e : NamedEntry} (named : Named es) (new : ∀ e' ∈ es, e'.name ≠ e.name)
    (inv : IsHashed bs hash (e ::ₘ (es : Multiset NamedEntry)) d) :
    DirHolds bs hash d (sortNames (e :: es)) := by
  have perm := sortNames_perm (e :: es)
  refine DirHolds.hashed ?_ ((named.cons new).perm perm.symm) (sortNames_byName _)
  rw [Multiset.coe_eq_coe.mpr perm, ← Multiset.cons_coe]
  exact inv

theorem dirInsertCall_hashed (takes : TakesBlocksize bs) (space : Space) (fuel : Nat)
    {e : NamedEntry} (proper : e.Proper)
    (again : Prog Dir Unit) (named : Named es) (inv : IsHashed bs hash (es : Multiset NamedEntry)
    d) :
    wp (Dir.dirInsertCall bs hash space fuel e again) (fun _ d' => (∀ e' ∈ es, e'.name ≠ e.name) ∧
      DirHolds bs hash d' (sortNames (e :: es)) ∧ HashFormat d'.inode.format) (Ends fuel) d := by
  have perm := sortNames_perm es
  have holds : DirHolds bs hash d (sortNames es) := by
    refine DirHolds.hashed ?_ (named.perm perm.symm) (sortNames_byName es)
    rw [Multiset.coe_eq_coe.mpr perm]
    exact inv
  have format : HashFormat d.inode.format := by
    obtain ⟨_, _, _, hashed⟩ := inv
    exact hashed.format
  rw [Dir.dirInsertCall, wp_bind, wp_run (holds.dirFind e.name), wp_ite]
  split
  case isTrue => exact fun _ => .inl ⟨_, rfl⟩
  case isFalse absent =>
    have new : ∀ e' ∈ es, e'.name ≠ e.name := by
      intro e' member same
      rw [find_name holds.named (perm.symm.subset member) same] at absent
      exact absent rfl
    have other : ¬ (d.inode.format = FMT_EMPTY ∨ d.inode.format = FMT_EMBED) := by
      rintro (empty | embed)
      · exact format.not_empty empty
      · exact format.not_embed embed
    have fmt : d.inode.format = FMT_EXTENT ∨ d.inode.format = FMT_TREE := format
    rw [wp_bind, wp_get, wp_ite, if_neg other, wp_ite, if_pos fmt]
    refine wp_mono (hashedInsert_wp takes space proper fuel inv)
        (fun _ d' next => ⟨new, holds_sorted named new next, ?_⟩)
      fun _ _ => id
    obtain ⟨_, _, _, hashed⟩ := next
    exact hashed.format

/-- `dir_insert` adds the entry, where no other has its name. -/
theorem dirInsert_wp (takes : TakesBlocksize bs) (space : Space) (fuel : Nat) {e : NamedEntry}
    (proper : e.Proper)
    (holds : DirHolds bs hash d es) :
    wp (Dir.dirInsert bs hash space fuel e) (fun _ d' => (∀ e' ∈ es, e'.name ≠ e.name) ∧
      DirHolds bs hash d' (inserted d es e) ∧ (HashFormat d'.inode.format ↔
        HashFormat d.inode.format ∨ entriesSize es + e.need > INODE_PAYLOAD)) (Ends fuel) d := by
  -- an empty directory is an embedded one without entries
  have small : d.inode.isDir = true → d.inode.format = FMT_EMPTY ∨ d.inode.format = FMT_EMBED →
      (∀ fb, d.blocks fb = none) → (∀ e ∈ es, e.Proper) → entriesSize es ≤ INODE_PAYLOAD →
      (Dir.embed d).inode.payload = putDir zeros 0 (es.map NamedEntry.coded) →
      (Dir.embed d).inode.format = FMT_EMBED →
      (Dir.embed d).inode.isDir = true → (Dir.embed d).blocks = d.blocks →
      wp (Dir.dirInsert bs hash space fuel e)
      (fun _ d' => (∀ e' ∈ es, e'.name ≠ e.name) ∧ DirHolds bs hash d' (inserted d es e) ∧
      (HashFormat d'.inode.format ↔
        HashFormat d.inode.format ∨ entriesSize es + e.need > INODE_PAYLOAD)) (Ends fuel) d := by
    intro isDir format clear known room payload embedFormat embedDir embedBlocks
    have unhashed : ¬ HashFormat d.inode.format := by
      intro hashed
      rcases format with empty | embed
      · exact hashed.not_empty empty
      · exact hashed.not_embed embed
    rw [Dir.dirInsert, Dir.dirInsertCall, wp_bind, wp_run (holds.dirFind e.name), wp_ite]
    split
    case isTrue => exact fun _ => .inl ⟨_, rfl⟩
    case isFalse absent =>
      have new : ∀ e' ∈ es, e'.name ≠ e.name := by
        intro e' member same
        rw [find_name holds.named member same] at absent
        exact absent rfl
      rw [wp_bind, wp_get, wp_ite, if_pos format, wp_bind, wp_modify, wp_bind, wp_get, Prog.run,
          payload,
        dirAppendNamed_putDir known room proper]
      by_cases large : entriesSize es + e.need > INODE_PAYLOAD
      · rw [if_pos large, inserted, if_pos (Or.inr large)]
        dsimp only
        rw [wp_bind]
        refine wp_mono (dirToHashed_wp takes space fuel embedDir (by rwa [embedBlocks])
          (by rw [payload, dirParseNamed_putDir known room]) known) (fun _ d' converted => ?_)
          fun _ _ => id
        exact wp_mono (dirInsertCall_hashed takes space fuel proper _ holds.named converted)
          (fun _ d'' post => ⟨post.1, post.2.1, fun _ => Or.inr large, fun _ => post.2.2⟩)
          fun _ _ => id
      · rw [if_neg large, inserted, if_neg (not_or.mpr ⟨unhashed, large⟩)]
        dsimp only
        rw [wp_modify]
        refine ⟨new, DirHolds.embedded embedDir embedFormat (by rwa [embedBlocks]) ?_ ?_ ?_ rfl,
          fun hashed => absurd embedFormat hashed.not_embed,
          fun either => absurd either (not_or.mpr ⟨unhashed, large⟩)⟩
        · intro e' member
          rcases List.mem_append.mp member with old | now
          · exact known e' old
          · rw [List.mem_singleton.mp now]
            exact proper
        · simp only [entriesSize, List.map_append, List.sum_append, List.map_cons, List.map_nil,
              List.sum_cons,
            List.sum_nil] at large ⊢
          omega
        · exact (holds.named.cons new).perm (List.perm_append_singleton e es).symm
  cases holds with
  | empty isDir format clear =>
      have embed : Dir.embed d =
          { d with inode := { d.inode with format := FMT_EMBED, payload := zeros } } :=
        if_pos format
      exact small isDir (Or.inl format) clear (fun e member => absurd member List.not_mem_nil)
          (Nat.zero_le _)
        (by rw [embed]; rfl) (by rw [embed]) (by rw [embed]; exact isDir) (by rw [embed])
  | embedded isDir format clear known room named payload =>
      have embed : Dir.embed d = d := if_neg (by rw [format]; decide)
      exact small isDir (Or.inr format) clear known room (by rw [embed, payload])
          (by rw [embed, format])
        (by rw [embed, isDir]) (by rw [embed])
  | hashed inv named sorted =>
      have format : HashFormat d.inode.format := by
        obtain ⟨_, _, _, hashed⟩ := inv
        exact hashed.format
      rw [inserted, if_pos (Or.inl format)]
      exact wp_mono (dirInsertCall_hashed takes space fuel proper _ named inv)
        (fun _ d' post => ⟨post.1, post.2.1, fun _ => Or.inl format, fun _ => post.2.2⟩) fun _ _ =>
        id

end Insert

theorem repack_run (es before : List NamedEntry) (proper : ∀ e ∈ before ++ es, e.Proper)
    (room : entriesSize (before ++ es) ≤ INODE_PAYLOAD) :
    Dir.repack es (putDir zeros 0 (before.map NamedEntry.coded)) =
      (.ok (), putDir zeros 0 ((before ++ es).map NamedEntry.coded)) := by
  induction es generalizing before with
  | nil => rw [List.append_nil]; rfl
  | cons e rest ih =>
      have sizes : entriesSize (before ++ e :: rest) = entriesSize
          before + (e.need + entriesSize rest) := by
        simp [entriesSize]
      have once := dirAppendNamed_putDir (fun e' member =>
          proper e' (List.mem_append_left _ member))
        (show entriesSize before ≤ INODE_PAYLOAD by omega)
        (proper e (List.mem_append_right _ List.mem_cons_self))
      rw [if_neg (by omega)] at once
      rw [Dir.repack, bind_ok _ _ once]
      have rest := ih (before ++ [e]) (by rwa [List.append_assoc]) (by rwa [List.append_assoc])
      rwa [List.append_assoc] at rest

section Remove

variable [Crc32c] {bs : Nat} {hash : String → UInt64} {M : Multiset NamedEntry} {d : Dir}
    {es : List NamedEntry}

theorem dirRemove_embedded (space : Space) (fuel : Nat) (name : String)
    (isDir : d.inode.isDir = true) (format : d.inode.format = FMT_EMBED)
    (clear : ∀ fb, d.blocks fb = none) (known : ∀ e ∈ es, e.Proper)
    (room : entriesSize es ≤ INODE_PAYLOAD) (named : Named es)
    (payload : d.inode.payload = putDir zeros 0 (es.map NamedEntry.coded)) :
    wp (Dir.dirRemove bs hash space fuel name) (fun e d' =>
      es.find? (fun e => e.name == name) = some e ∧
        DirHolds bs hash d' (es.eraseP fun e => e.name == name) ∧
        (HashFormat d'.inode.format → Coarse bs hash
          (es.eraseP fun e => e.name == name : List NamedEntry) d'))
      (Ends fuel) d := by
  rw [Dir.dirRemove, wp_bind, wp_get]
  rw [wp_ite, if_pos format, payload, dirParseNamed_putDir known room]
  dsimp only
  cases found : es.find? fun e => e.name == name with
  | none => exact fun _ => .inl ⟨_, rfl⟩
  | some e =>
      have sublist : (es.eraseP fun e => e.name == name).Sublist es := List.eraseP_sublist
      have known' : ∀ e' ∈ es.eraseP fun e => e.name == name, e'.Proper :=
          fun e' member => known e' (sublist.subset member)
      have room' := (entriesSize_eraseP found).trans room
      have packed := repack_run (es.eraseP fun e => e.name == name) [] known' room'
      dsimp only
      rw [Prog.run]
      rw [List.map_nil, putDir, List.nil_append] at packed
      rw [packed]
      dsimp only
      rw [wp_bind, wp_modify, wp_ite]
      split
      case isTrue none =>
        rw [wp_bind, wp_modify, wp_pure]
        refine ⟨rfl, ?_, fun hashed => absurd rfl hashed.not_empty⟩
        rw [none]
        exact DirHolds.empty isDir rfl clear
      case isFalse =>
        rw [wp_pure]
        refine ⟨rfl, DirHolds.embedded isDir format clear known' room' named.eraseP rfl,
            fun hashed => ?_⟩
        exact absurd format hashed.not_embed

theorem dirRemove_hashed (takes : TakesBlocksize bs) (space : Space) (fuel : Nat) (name : String)
    (inv : IsHashed bs hash (es : Multiset NamedEntry) d) (named : Named es) (sorted : ByName es) :
    wp (Dir.dirRemove bs hash space fuel name) (fun e d' =>
      es.find? (fun e => e.name == name) = some e ∧
        DirHolds bs hash d' (es.eraseP fun e => e.name == name) ∧
        (HashFormat d'.inode.format → Coarse bs hash
          (es.eraseP fun e => e.name == name : List NamedEntry) d'))
      (Ends fuel) d := by
  rw [Dir.dirRemove, wp_bind, wp_get]
  obtain ⟨x, slot, bucket, hashed⟩ := inv
  have fmt : d.inode.format = FMT_EXTENT ∨ d.inode.format = FMT_TREE := hashed.format
  have member := hashed.owner_live name
  have inside := hashed.shape.live_lt member
  rw [wp_ite, if_neg hashed.format.not_embed, wp_ite, if_pos fmt, wp_bind,
      wp_run hashed.dhdrRead, wp_bind,
    wp_run (hashed.table_run name), wp_bind, wp_run (hashed.bucketRead inside),
    find_hashed hashed named name]
  cases found : es.find? fun e => e.name == name with
  | none => exact fun _ => .inl ⟨_, rfl⟩
  | some e =>
      have perm := perm_eraseP found
      have stored := find_hashed hashed named name
      rw [found, Option.map_some] at stored
      have perm' := perm_eraseP stored
      have known := hashed.shape.bucket_proper inside
      have kept : ∀ e' ∈ (bucket (ExtHash.owner 64 x.depth slot
          (hash name).toNat)).entries.eraseP
          (fun e => e.hash == (hash name).toNat && e.name == name), e' ∈
          (bucket (ExtHash.owner 64 x.depth slot (hash name).toNat)).entries :=
          fun e' => List.mem_of_mem_eraseP
      have level := hashed.shape.owns.depth _ (ExtHash.pre_lt
          (Nat.le_of_lt hashed.shape.depth_lt) (hash_lt hash name))
      have small : (bucket (ExtHash.owner 64 x.depth slot (hash name).toNat)).ld < 2 ^ 8 :=
        Nat.lt_of_le_of_lt (Nat.le_trans level hashed.shape.depth) (by decide)
      dsimp only [Option.map_some]
      rw [wp_bind, hashed.address inside]
      refine wp_mono (Dir.bucketWrite_wp takes (fun e' left => known e' (kept e' left)) small
          _ d)
        (fun _ d₁ post₁ => ?_) fun e _ reported _ => reported
      obtain ⟨wrote, read⟩ := post₁
      have fewer : IsHashed bs hash (es.eraseP fun e => e.name == name : List NamedEntry)
          d₁ := by
        refine ⟨x, slot, _, hashed.rewrite wrote read
            (hashed.shape.replace member _ ?placed ?sum ?proper)⟩
        case placed => exact fun e' left => hashed.shape.placed _ member e' (kept e' left)
        case sum =>
          rw [Multiset.coe_eq_coe.mpr perm, Multiset.coe_eq_coe.mpr
              perm', ← Multiset.cons_coe, ← Multiset.cons_coe,
            Multiset.map_cons, Multiset.add_cons, Multiset.cons_add]
        case proper =>
          exact fun e' left => hashed.shape.proper e'
              (Multiset.mem_coe.mpr (List.mem_of_mem_eraseP left))
      rw [wp_bind]
      refine wp_mono (tryMerge_wp takes fuel fewer) (fun _ d₂ coarse => ?_) fun _ _ => id
      have after : DirHolds bs hash d₂ (es.eraseP fun e => e.name == name) := by
        refine DirHolds.hashed ?_ named.eraseP (List.Pairwise.sublist List.eraseP_sublist
            sorted)
        obtain ⟨x', slot', bucket', hashed', _⟩ := coarse
        exact ⟨x', slot', bucket', hashed'⟩
      rw [wp_bind, Dir.dirCount, wp_bind, wp_run after.dirList, wp_pure, wp_ite]
      split
      case isTrue none =>
        rw [wp_bind, Dir.mapFreeAll, wp_bind, wp_get]
        cases freed : space.free d₂ with
        | error m => exact fun _ => .inl ⟨_, rfl⟩
        | ok _ =>
            dsimp only
            rw [wp_modify, wp_pure]
            refine ⟨rfl, ?_, fun hashed => absurd rfl hashed.not_empty⟩
            rw [List.length_eq_zero_iff.mp none]
            exact DirHolds.empty after.isDir rfl fun _ => rfl
      case isFalse => exact ⟨rfl, after, fun _ => coarse⟩

/-- A failed search of `dir_remove` changes nothing; otherwise the entry is gone and the table as
coarse as can be. -/
theorem dirRemove_wp (takes : TakesBlocksize bs) (space : Space) (fuel : Nat) (name : String)
    (holds : DirHolds bs hash d es) :
    wp (Dir.dirRemove bs hash space fuel name) (fun e d' =>
    es.find? (fun e => e.name == name) = some e ∧
      DirHolds bs hash d' (es.eraseP fun e => e.name == name) ∧
      (HashFormat d'.inode.format → Coarse bs hash
      (es.eraseP fun e => e.name == name : List NamedEntry) d'))
      (Ends fuel) d := by
  cases holds with
  | empty isDir format clear =>
      have other : ¬ (d.inode.format = FMT_EXTENT ∨ d.inode.format = FMT_TREE) := by
        rw [format]
        decide
      rw [Dir.dirRemove, wp_bind, wp_get, wp_ite, if_neg (by rw [format]; decide), wp_ite,
        if_neg other, wp_ite, if_pos format]
      exact fun _ => .inl ⟨_, rfl⟩
  | embedded isDir format clear known room named payload =>
      exact dirRemove_embedded space fuel name isDir format clear known room named payload
  | hashed inv named sorted => exact dirRemove_hashed takes space fuel name inv named sorted

end Remove

end FiveFs
