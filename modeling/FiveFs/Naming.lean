import FiveFs.Directory

/-! What the calls on a directory answer: those of a map from names to entries, and none of the
problems that the check looks for. -/

namespace FiveFs

open Buffer Prog

/-- Successful calls of `dir_insert` and `dir_remove`, with the map from names that they stand for.
-/
inductive DirTrace [Crc32c] (bs : Nat) (hash : String → UInt64) : Dir →
    (String → Option NamedEntry) → Prop
  | fresh {d : Dir} : d.inode.isDir = true → d.inode.format = FMT_EMPTY →
      (∀ fb, d.blocks fb = none) →
      DirTrace bs hash d fun _ => none
  | insert {d d' : Dir} {m : String → Option NamedEntry} {e : NamedEntry} {space : Space}
      {fuel : Nat} :
      DirTrace bs hash d m → e.Proper → Dir.dirInsert bs hash space fuel e d = (.ok (), d') →
      DirTrace bs hash d' (Function.update m e.name (some e))
  | remove {d d' : Dir} {m : String → Option NamedEntry} {name : String} {removed : NamedEntry}
      {space : Space} {fuel : Nat} :
      DirTrace bs hash d m → Dir.dirRemove bs hash space fuel name d = (.ok removed, d') →
      DirTrace bs hash d' (Function.update m name none)

/-- The entries of the list are those of the map. -/
def MapOf (es : List NamedEntry) (m : String → Option NamedEntry) : Prop :=
  ∀ name e, m name = some e ↔ e ∈ es ∧ e.name = name

section Map

variable {es : List NamedEntry} {m : String → Option NamedEntry}

theorem MapOf.find (lists : MapOf es m) (named : Named es) (name : String) :
    es.find? (fun e => e.name == name) = m name := by
  apply Option.ext
  intro e
  rw [lists name e]
  constructor
  · intro found
    exact ⟨List.mem_of_find?_eq_some found, by simpa using List.find?_some found⟩
  · rintro ⟨member, same⟩
    exact find_name named member same

theorem MapOf.insert (lists : MapOf es m) {e : NamedEntry} (new : ∀ e' ∈ es, e'.name ≠ e.name)
    {es' : List NamedEntry}
    (perm : es'.Perm (e :: es)) : MapOf es' (Function.update m e.name (some e)) := by
  intro name a
  rw [perm.mem_iff, List.mem_cons]
  by_cases here : name = e.name
  · rw [here, Function.update_self, Option.some.injEq]
    constructor
    · rintro rfl
      exact ⟨Or.inl rfl, rfl⟩
    · rintro ⟨rfl | old, same⟩
      · rfl
      · exact absurd same (new a old)
  · rw [Function.update_of_ne here, lists name a]
    constructor
    · rintro ⟨member, same⟩
      exact ⟨Or.inr member, same⟩
    · rintro ⟨rfl | old, same⟩
      · exact absurd same.symm here
      · exact ⟨old, same⟩

theorem MapOf.remove (lists : MapOf es m) (named : Named es) {e : NamedEntry} {name : String}
    (found : es.find? (fun e => e.name == name) = some e) :
    MapOf (es.eraseP fun e => e.name == name) (Function.update m name none) := by
  have perm := perm_eraseP found
  have split := named.perm perm
  rw [Named, List.map_cons, List.nodup_cons] at split
  have same : e.name = name := by simpa using List.find?_some found
  intro name' a
  by_cases here : name' = name
  · rw [here, Function.update_self]
    constructor
    · intro h
      cases h
    · rintro ⟨member, eq⟩
      exact absurd (List.mem_map.mpr ⟨a, member, eq.trans same.symm⟩) split.1
  · rw [Function.update_of_ne here, lists name' a, perm.mem_iff, List.mem_cons]
    constructor
    · rintro ⟨rfl | left, eq⟩
      · exact absurd (eq.symm.trans same) here
      · exact ⟨left, eq⟩
    · rintro ⟨left, eq⟩
      exact ⟨Or.inr left, eq⟩

end Map

section Trace

variable [Crc32c] {bs : Nat} {hash : String → UInt64} {d : Dir} {m : String → Option NamedEntry}

theorem DirTrace.holds (takes : TakesBlocksize bs) (trace : DirTrace bs hash d m) :
    ∃ es, DirHolds bs hash d es ∧ MapOf es m := by
  induction trace with
  | fresh isDir format clear =>
      refine ⟨[], DirHolds.empty isDir format clear, fun name e => ?_⟩
      simp
  | insert _ proper run ih =>
      obtain ⟨es, holds, lists⟩ := ih
      obtain ⟨new, next, _⟩ := wp_ok (dirInsert_wp takes _ _ proper holds) run
      exact ⟨_, next, lists.insert new (inserted_perm _ _ _)⟩
  | remove _ run ih =>
      obtain ⟨es, holds, lists⟩ := ih
      obtain ⟨found, next, _⟩ := wp_ok (dirRemove_wp takes _ _ _ holds) run
      exact ⟨_, next, lists.remove holds.named found⟩

/-- Whatever the hash function and the outcomes of allocations, a directory answers as the map from
names that its calls stand for: a search finds the entry of the name, the listing has each entry
once, an insertion succeeds for a new name alone, a removal returns the entry of the name, and a
call for a name that is taken or missing fails and changes nothing. -/
theorem directory_refines_map (takes : TakesBlocksize bs) (trace : DirTrace bs hash d m) :
    (∀ name, Dir.dirFind bs hash name d = (.ok (m name), d)) ∧
    (∃ es, Dir.dirList bs d = (.ok es, d) ∧ (es.map NamedEntry.name).Nodup ∧ ∀ e, e ∈ es ↔
    m e.name = some e) ∧
    (∀ (e : NamedEntry) (space : Space) (fuel : Nat) (d' : Dir), e.Proper →
      Dir.dirInsert bs hash space fuel e d = (.ok (), d') → m e.name = none) ∧
    (∀ (name : String) (space : Space) (fuel : Nat) (removed : NamedEntry) (d' : Dir),
      Dir.dirRemove bs hash space fuel name d = (.ok removed, d') → m name = some removed) ∧
    (∀ (e : NamedEntry) (space : Space) (fuel : Nat), m e.name ≠ none →
      Dir.dirInsert bs hash space fuel e d = (.error (.bail s!"{e.name}: already exists"), d)) ∧
    ∀ (name : String) (space : Space) (fuel : Nat), m name = none →
      Dir.dirRemove bs hash space fuel name d = (.error (.bail s!"{name}: not found"), d) := by
  obtain ⟨es, holds, lists⟩ := trace.holds takes
  have find : ∀ name, es.find? (fun e => e.name == name) = m name := lists.find holds.named
  refine ⟨fun name => ?find, ⟨es, holds.dirList, holds.named, fun e => ?list⟩, ?insert, ?remove,
      ?taken, ?missing⟩
  case find => rw [holds.dirFind, find]
  case list => exact ⟨fun member => (lists e.name e).mpr ⟨member, rfl⟩,
      fun some => ((lists e.name e).mp some).1⟩
  case insert =>
    intro e space fuel d' proper run
    obtain ⟨new, _⟩ := wp_ok (dirInsert_wp takes space fuel proper holds) run
    rw [← find, List.find?_eq_none]
    intro e' member
    simpa using new e' member
  case remove =>
    intro name space fuel removed d' run
    obtain ⟨found, _⟩ := wp_ok (dirRemove_wp takes space fuel name holds) run
    rw [← find, found]
  case taken =>
    intro e space fuel taken
    obtain ⟨other, eq⟩ := Option.ne_none_iff_exists'.mp taken
    rw [Dir.dirInsert, Dir.dirInsertCall, bind_ok _ _ (holds.dirFind e.name), find, eq,
        if_pos Option.isSome_some]
    rfl
  case missing =>
    intro name space fuel missing
    rw [Dir.dirRemove, bind_ok _ _ get_run]
    cases holds with
    | empty isDir format clear =>
        have other : ¬ (d.inode.format = FMT_EXTENT ∨ d.inode.format = FMT_TREE) := by
          rw [format]
          decide
        rw [if_neg (by rw [format]; decide), if_neg other, if_pos format]
        rfl
    | embedded isDir format clear known room named payload =>
        rw [if_pos format, payload, dirParseNamed_putDir known room]
        dsimp only
        rw [find, missing]
        rfl
    | hashed inv named sorted =>
        obtain ⟨x, slot, bucket, hashed⟩ := inv
        have fmt : d.inode.format = FMT_EXTENT ∨ d.inode.format = FMT_TREE := hashed.format
        rw [if_neg hashed.format.not_embed, if_pos fmt, bind_ok _ _ hashed.dhdrRead,
            bind_ok _ _ (hashed.table_run name),
          bind_ok _ _ (hashed.bucketRead (hashed.shape.live_lt (hashed.owner_live name))),
          find_hashed hashed named name,
          find, missing]
        rfl

end Trace

section Check

variable [Crc32c] {bs : Nat} {hash : String → UInt64} {M : Multiset NamedEntry} {d : Dir}
    {x : DirHeader}
  {slot : Nat → Nat} {bucket : Nat → Bucket}

theorem bucketProblems_none (hashed : Hashed bs hash M d x slot bucket) {b : Nat}
    (member : b ∈ ExtHash.live x.depth slot) :
    Dir.bucketProblems hash x b (bucket b) = [] := by
  have shape := hashed.shape
  obtain ⟨k, hk, rfl⟩ := ExtHash.mem_live.mp member
  rw [Dir.bucketProblems, if_neg (Nat.not_lt.mpr (shape.owns.depth k hk)), List.nil_append,
      List.flatMap_eq_nil_iff]
  intro e stored
  have place := shape.placed _ member e stored
  obtain ⟨ne, _, rfl⟩ := shape.stored_proper (hashed.slot_lt hk) e stored
  have hi : ExtHash.pre 64 x.depth (hash ne.name).toNat < 2 ^ x.depth :=
    ExtHash.pre_lt (Nat.le_of_lt shape.depth_lt) (hash_lt hash ne.name)
  have found : x.table[bucketIndex (hash ne.name).toNat x.depth]? = some (slot k) := by
    rw [bucketIndex_eq _ _ (hash_lt hash ne.name), shape.slot_eq]
    exact ⟨hi, place⟩
  have right : ¬ x.table[bucketIndex (hash (ne.keyed hash).name).toNat x.depth]? ≠ some (slot k) :=
    fun wrong => wrong found
  dsimp only
  rw [if_neg right, if_neg fun wrong => wrong rfl]
  rfl

theorem checkBuckets_run (hashed : Hashed bs hash M d x slot bucket) (bnos : List Nat)
    (inside : ∀ b ∈ bnos, b ∈ ExtHash.live x.depth slot) :
    Dir.checkBuckets bs hash x bnos d = (.ok [], d) := by
  induction bnos with
  | nil => rfl
  | cons b rest ih =>
      have member := inside b List.mem_cons_self
      have read : attempt (Dir.bucketRead bs b) d = (.ok (.ok (bucket b)), d) := by
        rw [attempt, hashed.bucketRead (hashed.shape.live_lt member)]
      have later := ih fun c listed => inside c (List.mem_cons_of_mem _ listed)
      rw [Dir.checkBuckets, bind_ok _ _ read]
      dsimp only
      rw [bucketProblems_none hashed member]
      refine (bind_ok _ _ (pure_run _)).trans ((bind_ok _ _ later).trans ?_)
      rfl

/-- The check of fsck finds no problem in a directory that any run left. -/
theorem dirCheck_clean (takes : TakesBlocksize bs) (run : DirRun bs hash d) :
    Dir.dirCheck bs hash d = (.ok [], d) := by
  rw [Dir.dirCheck, bind_ok _ _ get_run]
  by_cases format : HashFormat d.inode.format
  · obtain ⟨M, x, slot, bucket, hashed⟩ := run.isHashed takes format
    have shape := hashed.shape
    have fmt : d.inode.format = FMT_EXTENT ∨ d.inode.format = FMT_TREE := format
    have buckets := checkBuckets_run hashed ((List.range x.nbuckets).filter fun b =>
        !x.freelist.contains b)
      fun b listed => by
        have inside := List.mem_range.mp (List.mem_of_mem_filter listed)
        have kept : b ∉ x.freelist := by simpa using List.of_mem_filter listed
        exact ((shape.parts b).mp inside).resolve_right kept
    have slots : (x.table.zipIdx.flatMap fun slot =>
        (if slot.1 ≥ x.nbuckets then
            [s!"table[{slot.2}] points at bucket {slot.1} >= {x.nbuckets}"] else []) ++
          if x.freelist.contains
          slot.1 then [s!"table[{slot.2}] points at freed bucket {slot.1}"] else []) = [] := by
      rw [List.flatMap_eq_nil_iff]
      intro slot listed
      have live := shape.mem_table.mp (List.fst_mem_of_mem_zipIdx listed)
      rw [if_neg (Nat.not_le.mpr (shape.live_lt live)), if_neg (by simpa using shape.apart _ live)]
      rfl
    have free : (x.freelist.flatMap fun b =>
        if b ≥ x.nbuckets then [s!"freelist entry {b} >= {x.nbuckets}"] else []) = [] := by
      rw [List.flatMap_eq_nil_iff]
      intro b listed
      rw [if_neg (Nat.not_le.mpr (shape.free_lt listed))]
    rw [if_neg (not_not.mpr fmt), bind_ok _ _ hashed.dhdrRead]
    rw [bind_ok _ _ buckets, slots, free]
    rfl
  · have other : ¬ (d.inode.format = FMT_EXTENT ∨ d.inode.format = FMT_TREE) := format
    rw [if_pos other]
    rfl

end Check

/-- Entries that were embedded and hashed, one of them removed again. -/
theorem directory_refines_map_long : ∃ d m, @DirTrace castagnoli 2048 (fun _ => 0) d m ∧
    @Dir.dirFind castagnoli 2048 (fun _ => 0) "b" d = (.ok (some entryB), d) ∧
    @Dir.dirFind castagnoli 2048 (fun _ => 0) "a" d = (.ok none, d) ∧
    @Dir.dirInsert castagnoli 2048 (fun _ => 0) roomy 1 longEntry d =
      (.error (.bail s!"{longEntry.name}: already exists"), d) := by
  let crc := castagnoli
  obtain ⟨_, _, _, d, _, s⟩ := sample_run fun _ => 0
  have trace := DirTrace.remove (.insert (.insert (.insert
    (.fresh (d := newDir) (by decide) rfl fun _ => rfl) entryB_proper s.embeds) longEntry_proper
    s.converts)
    entryA_proper s.inserts) s.removes
  obtain ⟨find, -, -, -, taken, -⟩ := directory_refines_map takes_2048 trace
  refine ⟨d, _, trace, ?_, ?_, taken longEntry roomy 1 ?_⟩
  · rw [find, Function.update_of_ne (by decide), Function.update_of_ne (by decide),
      Function.update_of_ne (by decide)]
    exact congrArg (fun m => (Except.ok m, d)) (Function.update_self entryB.name _ _)
  · rw [find, Function.update_self]
  · rw [Function.update_of_ne (by decide), Function.update_of_ne (by decide), Function.update_self]
    exact Option.some_ne_none _

theorem dirCheck_clean_long : ∃ d, @DirRun castagnoli 2048 (fun _ => 0) d ∧
    @Dir.dirList castagnoli 2048 d = (.ok (sortNames [entryB, longEntry]), d) ∧
    @Dir.dirCheck castagnoli 2048 (fun _ => 0) d = (.ok [], d) := by
  let crc := castagnoli
  obtain ⟨_, _, _, d, _, s⟩ := sample_run fun _ => 0
  exact ⟨d, s.run₄, s.two.dirList, dirCheck_clean takes_2048 s.run₄⟩

end FiveFs
