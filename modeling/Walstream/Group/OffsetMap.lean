import Walstream.Group.Offsets

/-!
# The offsets of a manifest as a map

What the checks on commits and manifests guarantee, and what a commit does to the positions:
it overrides those of its own keys. A manifest that a commit writes is one that `load` accepts,
with the same positions.
-/

namespace Walstream.Group

open Interaction Log
open Std (ExtTreeMap)

/-! ## Positions -/

/-- What the store is for: a position for some keys. -/
abbrev Positions := TopicPartition → Option CommittedOffset

/-- The position that these commits set for a key. -/
def positionIn (commits : List OffsetCommit) (key : TopicPartition) : Option CommittedOffset :=
  (commits.find? fun commit => commit.key = key).map (·.position)

/-- A commit overrides the positions of its keys and leaves the others. -/
def Positions.override (p : Positions) (commits : List OffsetCommit) : Positions :=
  fun key => (positionIn commits key).or (p key)

/-- The positions of a map. -/
def Offsets.positions (offsets : Offsets) : Positions := fun key => offsets[key]?

theorem positionIn_cons {commit : OffsetCommit} {commits : List OffsetCommit}
    {key : TopicPartition} : positionIn (commit :: commits) key =
      if commit.key = key then some commit.position else positionIn commits key := by
  unfold positionIn
  by_cases heq : commit.key = key <;> simp [heq]

theorem positionIn_eq_none {commits : List OffsetCommit} {key : TopicPartition}
    (h : key ∉ commits.map (·.key)) : positionIn commits key = none := by
  unfold positionIn
  rw [Option.map_eq_none_iff, List.find?_eq_none]
  intro commit hcommit
  simp only [decide_eq_true_eq]
  rintro rfl
  exact h (List.mem_map_of_mem hcommit)

/-- Commits with different keys do what their purpose says. -/
theorem commitOffsets_positions {commits : List OffsetCommit} {offsets : Offsets}
    (h : (commits.map (·.key)).Nodup) :
    (commitOffsets offsets commits).positions = offsets.positions.override commits := by
  induction commits generalizing offsets with
  | nil =>
    funext key
    simp [commitOffsets, Positions.override, positionIn]
  | cons commit commits ih =>
    obtain ⟨hnew, hrest⟩ := List.nodup_cons.mp h
    have hstep : commitOffsets offsets (commit :: commits) =
        commitOffsets (offsets.insert commit.key commit.position) commits := rfl
    rw [hstep, ih hrest]
    funext key
    simp only [Positions.override, Offsets.positions, positionIn_cons, ExtTreeMap.getElem?_insert_ite]
    by_cases heq : commit.key = key
    · subst heq
      simp [positionIn_eq_none hnew]
    · simp [heq, Ne.symm heq]

/-! ## Checks -/

/-- The position may be committed. -/
def Acceptable (p : TopicPartition × CommittedOffset) : Prop :=
  validatePosition p.1 p.2.offset p.2.metadata = .ok ()

theorem validateCommitsFrom_eq_ok {commits : List OffsetCommit} {keys : List TopicPartition} :
    validateCommitsFrom commits keys = .ok () ↔
      (∀ commit ∈ commits, Acceptable (commit.key, commit.position) ∧ commit.key ∉ keys) ∧
        (commits.map (·.key)).Nodup := by
  induction commits generalizing keys with
  | nil => simp [validateCommitsFrom]
  | cons commit commits ih =>
    rw [List.forall_mem_cons, List.map_cons, List.nodup_cons]
    simp only [validateCommitsFrom, bind_eq_ok, rejectIf_eq_ok, ih, List.mem_cons, not_or]
    constructor
    · rintro ⟨_, hvalid, _, hkey, hall, hnodup⟩
      refine ⟨⟨⟨hvalid, hkey⟩, fun c hc => ⟨(hall c hc).1, (hall c hc).2.2⟩⟩, ?_, hnodup⟩
      intro hmem
      obtain ⟨c, hc, heq⟩ := List.mem_map.mp hmem
      exact (hall c hc).2.1 heq
    · rintro ⟨⟨⟨hvalid, hkey⟩, hall⟩, hnew, hnodup⟩
      refine ⟨(), hvalid, (), hkey, fun c hc => ⟨(hall c hc).1, ?_, (hall c hc).2⟩, hnodup⟩
      intro heq
      exact hnew (heq ▸ List.mem_map_of_mem hc)

theorem validateCommits_eq_ok {commits : List OffsetCommit} : validateCommits commits = .ok () ↔
    commits.length ≤ maxGroupOffsets ∧
      (∀ commit ∈ commits, Acceptable (commit.key, commit.position)) ∧
        (commits.map (·.key)).Nodup := by
  simp only [validateCommits, bind_eq_ok, rejectIf_eq_ok, not_lt, validateCommitsFrom_eq_ok,
    List.not_mem_nil, not_false_eq_true, and_true, gt_iff_lt, exists_const]

/-! ## Manifests -/

variable {json : OffsetJson}

theorem offsetMapFrom_eq_ok {entries : List OffsetEntry} {offsets offsets' : Offsets} :
    offsetMapFrom json entries offsets = .ok offsets' ↔
      (∀ entry ∈ entries, Acceptable (entry.key, entry.position) ∧ entry.key ∉ offsets) ∧
        (entries.map (·.key)).Nodup ∧
          offsets' = offsets.insertMany (entries.map fun entry => (entry.key, entry.position)) := by
  induction entries generalizing offsets with
  | nil => simp [offsetMapFrom, eq_comm]
  | cons entry entries ih =>
    simp only [offsetMapFrom, bind_eq_ok, rejectIf_eq_ok, mapError_eq_ok, ih, List.forall_mem_cons,
      List.map_cons, List.nodup_cons, ExtTreeMap.insertMany_cons, ExtTreeMap.mem_insert, not_or]
    constructor
    · rintro ⟨_, hvalid, _, hkey, hall, hnodup, heq⟩
      refine ⟨⟨⟨hvalid, hkey⟩, fun e he => ⟨(hall e he).1, (hall e he).2.2⟩⟩, ⟨?_, hnodup⟩, heq⟩
      intro hmem
      obtain ⟨e, he, hsame⟩ := List.mem_map.mp hmem
      exact (hall e he).2.1 (by rw [hsame]; exact Std.ReflCmp.compare_self)
    · rintro ⟨⟨⟨hvalid, hkey⟩, hall⟩, ⟨hnew, hnodup⟩, heq⟩
      refine ⟨(), hvalid, (), hkey, fun e he => ⟨(hall e he).1, ?_, (hall e he).2⟩, hnodup, heq⟩
      intro hsame
      exact hnew (Std.LawfulEqOrd.eq_of_compare hsame ▸ List.mem_map_of_mem he)

/-- The map of a manifest: its entries are acceptable and have different keys. -/
theorem OffsetManifest.offsetMap_eq_ok {m : OffsetManifest} {offsets : Offsets} :
    m.offsetMap json = .ok offsets ↔
      (∀ entry ∈ m.offsets, Acceptable (entry.key, entry.position)) ∧
        (m.offsets.map (·.key)).Nodup ∧
          offsets = .ofList (m.offsets.map fun entry => (entry.key, entry.position)) compare := by
  unfold offsetMap
  rw [offsetMapFrom_eq_ok, ExtTreeMap.ofList_eq_insertMany_empty]
  simp

/-- Every position of a manifest's map is acceptable. -/
theorem OffsetManifest.acceptable {m : OffsetManifest} {offsets : Offsets}
    (h : m.offsetMap json = .ok offsets) {key : TopicPartition} {position : CommittedOffset}
    (hkey : offsets[key]? = some position) : Acceptable (key, position) := by
  obtain ⟨hvalid, hnodup, rfl⟩ := offsetMap_eq_ok.mp h
  have hdistinct := ExtTreeMap.distinct_of_nodup
    (l := m.offsets.map fun entry => (entry.key, entry.position)) (by rwa [List.map_map])
  by_cases hin : key ∈ m.offsets.map (·.key)
  · obtain ⟨entry, hentry, rfl⟩ := List.mem_map.mp hin
    have hmem := List.mem_map_of_mem (f := fun entry : OffsetEntry => (entry.key, entry.position))
      hentry
    have hfound : (ExtTreeMap.ofList (m.offsets.map fun entry => (entry.key, entry.position))
        compare)[entry.key]? = some entry.position :=
      ExtTreeMap.getElem?_ofList_of_mem Std.ReflCmp.compare_self hdistinct hmem
    obtain rfl := Option.some.inj (hkey.symm.trans hfound)
    exact hvalid entry hentry
  · rw [ExtTreeMap.getElem?_ofList_of_contains_eq_false] at hkey
    · cases hkey
    · rw [List.map_map]
      simpa [Function.comp_def] using hin

/-- The entries of a map, written down, are that map. -/
theorem offsetMap_of_toList {m : OffsetManifest} {offsets : Offsets}
    (hvalid : ∀ key position, offsets[key]? = some position → Acceptable (key, position))
    (hentries : m.offsets = offsets.toList.map OffsetEntry.of) : m.offsetMap json = .ok offsets := by
  have hback : (offsets.toList.map OffsetEntry.of).map (fun entry => (entry.key, entry.position)) =
      offsets.toList := by
    rw [List.map_map]
    exact List.map_id _
  have hkeys : (offsets.toList.map OffsetEntry.of).map (·.key) = offsets.keys := by
    rw [← ExtTreeMap.map_fst_toList_eq_keys, List.map_map]
    rfl
  rw [OffsetManifest.offsetMap_eq_ok, hentries, hback, hkeys, ExtTreeMap.ofList_toList]
  refine ⟨?_, ExtTreeMap.nodup_keys, rfl⟩
  intro entry hentry
  obtain ⟨⟨key, position⟩, hp, rfl⟩ := List.mem_map.mp hentry
  exact hvalid key position (ExtTreeMap.mem_toList_iff_getElem?_eq_some.mp hp)

/-! ## What `load` accepts -/

theorem visitSeqFrom_ok {entries : List OffsetEntry} {count : Nat}
    (h : count + entries.length ≤ maxGroupOffsets) :
    visitSeqFrom (entries.map .ok) count = .ok entries := by
  induction entries generalizing count with
  | nil => rfl
  | cons entry entries ih =>
    rw [List.length_cons] at h
    have hne : ¬ count = maxGroupOffsets := by omega
    have hrest : visitSeqFrom (entries.map .ok) (count + 1) = .ok entries := ih (by omega)
    simp [visitSeqFrom, rejectIf, hne, hrest, bind, Except.bind, pure, Except.pure]

/-- The manifest that a content stands for, if `load` accepts it. -/
def manifestOf (json : OffsetJson) : Option Document → Option OffsetManifest
  | none => some .empty
  | some bytes =>
    (acceptOffsets json ⟨bytes.length, bytes, .ok bytes⟩).toOption.map (·.manifest)

/-- The content is none, or one that `load` accepts, and these are its positions. -/
def Holds (json : OffsetJson) (content : Option Document) (p : Positions) : Prop :=
  ∃ m offsets, manifestOf json content = some m ∧ m.offsetMap json = .ok offsets ∧
    offsets.positions = p

/-- The positions that a content stands for, if `load` accepts it. -/
def positionsOf (json : OffsetJson) (content : Option Document) : Option Positions :=
  (manifestOf json content).bind fun m => (m.offsetMap json).toOption.map Offsets.positions

theorem Holds.unique {content : Option Document} {p p' : Positions} (h : Holds json content p)
    (h' : Holds json content p') : p = p' := by
  obtain ⟨m, offsets, hm, hmap, rfl⟩ := h
  obtain ⟨m', offsets', hm', hmap', rfl⟩ := h'
  obtain rfl := Option.some.inj (hm.symm.trans hm')
  obtain rfl := Except.ok.inj (hmap.symm.trans hmap')
  rfl

theorem acceptOffsets_eq_ok {size : Nat} {version : Document} {body : Except StoreError Document}
    {loaded : LoadedOffsetManifest} : acceptOffsets json ⟨size, version, body⟩ = .ok loaded ↔
      size ≤ maxOffsetManifestBytes ∧ ∃ bytes, body = .ok bytes ∧
        bytes.length ≤ maxOffsetManifestBytes ∧ json.fromSlice bytes = .ok loaded.manifest ∧
          loaded.manifest.validate json = .ok () ∧ loaded.version = some version := by
  simp only [acceptOffsets, bind_eq_ok, rejectIf_eq_ok, mapError_eq_ok, pure, Except.pure,
    Except.ok.injEq, not_lt, gt_iff_lt]
  constructor
  · rintro ⟨_, hsize, bytes, hcollect, manifest, hslice, _, hvalid, rfl⟩
    -- the body arrives whole, and within the bound
    have hbody : body = .ok bytes ∧ bytes.length ≤ maxOffsetManifestBytes := by
      cases body with
      | error e => cases hcollect
      | ok bytes' =>
        unfold collectDocument at hcollect
        dsimp only at hcollect
        split at hcollect
        · cases hcollect
        · cases hcollect
          exact ⟨rfl, by omega⟩
    exact ⟨hsize, bytes, hbody.1, hbody.2, hslice, hvalid, rfl⟩
  · rintro ⟨hsize, bytes, rfl, hlength, hslice, hvalid, hversion⟩
    refine ⟨(), hsize, bytes, ?_, loaded.manifest, hslice, (), hvalid, ?_⟩
    · simp [collectDocument, hlength]
    · rw [← hversion]

theorem OffsetManifest.validate_eq_ok {m : OffsetManifest} : m.validate json = .ok () ↔
    m.schema = offsetSchema ∧ ∃ offsets, m.offsetMap json = .ok offsets := by
  cases hmap : m.offsetMap json <;> simp [validate, hmap, bind_eq_ok, rejectIf_eq_ok]

/-- A content that `load` accepts. -/
theorem manifestOf_accepted {bytes : Document} {loaded : LoadedOffsetManifest}
    (h : acceptOffsets json ⟨bytes.length, bytes, .ok bytes⟩ = .ok loaded) :
    manifestOf json (some bytes) = some loaded.manifest := by
  simp [manifestOf, h, Except.toOption]

/-- Every manifest that is loaded has a map, and the newest schema. -/
theorem manifestOf_valid {content : Option Document} {m : OffsetManifest}
    (h : manifestOf json content = some m) :
    m.schema = offsetSchema ∧ ∃ offsets, m.offsetMap json = .ok offsets := by
  cases content with
  | none =>
    cases h
    exact ⟨rfl, ∅, rfl⟩
  | some bytes =>
    cases haccept : acceptOffsets json ⟨bytes.length, bytes, .ok bytes⟩ with
    | error e => simp [manifestOf, haccept, Except.toOption] at h
    | ok loaded =>
      rw [manifestOf_accepted haccept, Option.some.injEq] at h
      obtain ⟨-, bytes', -, -, -, hvalid, -⟩ := acceptOffsets_eq_ok.mp haccept
      exact OffsetManifest.validate_eq_ok.mp (h ▸ hvalid)

/-! ## What a commit writes -/

/-- What is known of bytes that a commit writes over `p`. -/
structure Writes (json : OffsetJson) (p : Positions) (commits : List OffsetCommit)
    (bytes : Document) (m : OffsetManifest) (offsets : Offsets) : Prop where
  accepted : acceptOffsets json ⟨bytes.length, bytes, .ok bytes⟩ = .ok ⟨m, some bytes⟩
  map : m.offsetMap json = .ok offsets
  length_le : bytes.length ≤ maxOffsetManifestBytes
  size_le : m.offsets.length ≤ maxGroupOffsets
  positions : offsets.positions = p.override commits

theorem Writes.holds {p : Positions} {commits : List OffsetCommit} {bytes : Document}
    {m : OffsetManifest} {offsets : Offsets} (h : Writes json p commits bytes m offsets) :
    Holds json (some bytes) (p.override commits) :=
  ⟨m, offsets, manifestOf_accepted h.accepted, h.map, h.positions⟩

/-- **Writer and reader agree**: what a commit writes over a manifest is accepted by `load`, and
its positions are those of the manifest, overridden by the commit. -/
theorem OffsetManifest.rewrite_spec {m : OffsetManifest} {commits : List OffsetCommit}
    {offsets : Offsets} {bytes : Document} (hschema : m.schema = offsetSchema)
    (hmap : m.offsetMap json = .ok offsets) (hcommits : validateCommits commits = .ok ())
    (h : m.rewrite json commits = .ok bytes) :
    ∃ m' offsets', Writes json offsets.positions commits bytes m' offsets' := by
  obtain ⟨-, hvalid, hnodup⟩ := validateCommits_eq_ok.mp hcommits
  simp only [rewrite, next, hmap, bind_eq_ok, rejectIf_eq_ok, okOr_eq_ok, Except.ok.injEq, pure,
    Except.pure, not_lt, gt_iff_lt, checkedAddU64_eq_some] at h
  obtain ⟨m', ⟨_, rfl, _, hsize, revision, ⟨hrevision, rfl⟩, rfl⟩, _, hlength, rfl⟩ := h
  -- the positions that are new are those of the commit
  have hpositions : (commitOffsets offsets commits).positions = offsets.positions.override commits :=
    commitOffsets_positions hnodup
  have hall : ∀ key position, (commitOffsets offsets commits)[key]? = some position →
      Acceptable (key, position) := by
    intro key position hkey
    have hkey' : (commitOffsets offsets commits).positions key = some position := hkey
    rw [hpositions, Positions.override, Option.or_eq_some_iff] at hkey'
    rcases hkey' with hnew | ⟨-, hold⟩
    · obtain ⟨commit, hfind, rfl⟩ := Option.map_eq_some_iff.mp hnew
      have hcommit : commit.key = key := by simpa using List.find?_some hfind
      exact hcommit ▸ hvalid commit (List.mem_of_find?_eq_some hfind)
    · exact m.acceptable hmap hold
  have hmap' : OffsetManifest.offsetMap ⟨m.schema, m.revision + 1,
      (commitOffsets offsets commits).toList.map OffsetEntry.of⟩ json =
        .ok (commitOffsets offsets commits) := offsetMap_of_toList hall rfl
  have hcount : ((commitOffsets offsets commits).toList.map OffsetEntry.of).length ≤
      maxGroupOffsets := by
    rw [List.length_map, ExtTreeMap.length_toList]
    exact hsize
  refine ⟨_, _, ⟨acceptOffsets_eq_ok.mpr ⟨hlength, _, rfl, hlength, ?_, ?_, rfl⟩, hmap', hlength,
    hcount, hpositions⟩⟩
  · have hentries : ∀ entry ∈ (commitOffsets offsets commits).toList.map OffsetEntry.of,
        validatePosition entry.key entry.offset entry.metadata = .ok () :=
      (OffsetManifest.offsetMap_eq_ok.mp hmap').1
    have hparse := json.parse_toVec ⟨m.schema, m.revision + 1,
      (commitOffsets offsets commits).toList.map OffsetEntry.of⟩ hschema hrevision hentries
    have hvisit := visitSeqFrom_ok ((Nat.zero_add _).le.trans hcount)
    simp only [OffsetJson.fromSlice, bind_eq_ok, mapError_eq_ok, pure, Except.pure, Except.ok.injEq]
    exact ⟨_, hparse, _, hvisit, rfl⟩
  · exact OffsetManifest.validate_eq_ok.mpr ⟨hschema, _, hmap'⟩

end Walstream.Group
