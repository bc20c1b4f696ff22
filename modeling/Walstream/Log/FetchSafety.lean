import Walstream.Log.Coherence
import Walstream.Log.IndexSafety
import Walstream.Log.Selecting

/-!
# What a fetch returns, whatever the store answers

A fetch reads one manifest, walks its index and reads the record objects it selects. Whatever
it is answered: the segments are consecutive, the first one has the wanted offset, each is read
whole, and they fit the budget or are the one segment that may exceed it.
-/

namespace Walstream.Log

open Interaction Tiling

namespace PartitionLog

variable {self : PartitionLog}

/-! ## The segments of a manifest -/

/-- The manifest passes the checks of `load_manifest`. -/
def ValidManifest (log : PartitionLog) : LogManifest → Prop
  | .legacy m => SegmentTiles m.segments 0 m.nextOffset ∧ ∀ s ∈ m.segments, log.ValidSegment s
  | .indexed root => log.ValidRoot root

/-- The segment is in a leaf below the reference: every page on the way passes `read_page`, and
so has the length and the digest that its reference promises. -/
inductive InTree (log : PartitionLog) : PageRef → Segment → Prop where
  | leaf {r : PageRef} {segments : List Segment} {s : Segment}
      {h : log.checkPage r (.leaf segments) = .ok ()}
      (read : Yields (log.readPage r) ⟨.leaf segments, h⟩) (hs : s ∈ segments) : InTree log r s
  | branch {r c : PageRef} {children : List PageRef} {s : Segment}
      {h : log.checkPage r (.branch children) = .ok ()}
      (read : Yields (log.readPage r) ⟨.branch children, h⟩) (hc : c ∈ children)
      (below : InTree log c s) : InTree log r s

/-- The segment is one of the manifest's. -/
def Lists (log : PartitionLog) (m : LogManifest) (s : Segment) : Prop :=
  match m with
  | .legacy m => s ∈ m.segments
  | .indexed root => s ∈ root.tail ∨ ∃ r ∈ root.tree, log.InTree r s

theorem InTree.valid {r : PageRef} {s : Segment} (h : self.InTree r s) : self.ValidSegment s := by
  induction h with
  | @leaf r segments s h read hs => exact (checkPage_leaf.mp h).2.2.2.2.1 s hs
  | branch read hc below ih => exact ih

theorem Lists.valid {m : LogManifest} {s : Segment} (hm : self.ValidManifest m)
    (h : self.Lists m s) : self.ValidSegment s := by
  cases m with
  | legacy m => exact hm.2 s h
  | indexed root =>
    rcases h with htail | ⟨r, -, hbelow⟩
    · exact ValidRoot.tail_valid hm s htail
    · exact hbelow.valid

/-- A manifest that was loaded is valid. -/
theorem loadManifest_valid {loaded : LoadedManifest}
    (h : Yields self.loadManifest (some loaded)) : self.ValidManifest loaded.manifest := by
  unfold loadManifest loadManifestOf at h
  obtain ⟨answer, -, h⟩ := yields_bind h
  -- a stored body is either refused or gives a manifest that one of the two checks accepts
  split at h
  · obtain ⟨accepted, haccept, h⟩ := yields_bind h
    obtain rfl := Option.some.inj (yields_pure h)
    have hok := yields_check haccept
    simp only [acceptManifest, bind_eq_ok, pure, Except.pure, Except.ok.injEq] at hok
    obtain ⟨-, -, body, -, manifest, hparse, rfl⟩ := hok
    unfold parseManifest at hparse
    split at hparse
    · split at hparse
      -- a legacy body
      · simp only [bind_eq_ok, pure, Except.pure, Except.ok.injEq] at hparse
        obtain ⟨_, hvalid, rfl⟩ := hparse
        obtain ⟨-, -, htiles, hsegments, -⟩ := validateManifest_eq_ok.mp hvalid
        exact ⟨htiles, hsegments⟩
      · split at hparse <;> cases hparse
    · split at hparse
      · simp only [bind_eq_ok, pure, Except.pure, Except.ok.injEq] at hparse
        -- a root
        obtain ⟨_, hvalid, rfl⟩ := hparse
        exact validateRoot_eq_ok.mp hvalid
      · split at hparse <;> cases hparse
    · cases hparse
  · cases yields_pure h
  · exact absurd h not_yields_throw

/-- So is the manifest of a partition that may have none yet. -/
theorem loaded_valid {loaded : Option LoadedManifest} (h : Yields self.loadManifest loaded) :
    self.ValidManifest (loaded.getD LoadedManifest.empty).manifest := by
  cases loaded with
  | none => exact validRoot_empty
  | some loaded => exact loadManifest_valid h

/-! ## The budget of a selection -/

section Rule

variable {P R : Selection → Prop}

end Rule

/-- A selection that may go on: what it has selected is paid for. -/
structure Going (log : PartitionLog) (m : LogManifest) (budget : Nat) (allow : Bool)
    (sel : Selection) : Prop where
  allow : sel.allowOversized = allow
  spent : sel.remaining + totalBytes sel.segments = budget
  listed : ∀ s ∈ sel.segments, log.Lists m s

section Budget

variable {m : LogManifest} {budget : Nat} {allow : Bool} {sel : Selection} {offset : Int}

/-- One more segment that is paid for. -/
private theorem Going.take {s : Segment} (h : self.Going m budget allow sel)
    (hs : self.Lists m s) (hfits : s.byteLength ≤ sel.remaining) :
    self.Going m budget allow
      { sel with remaining := sel.remaining - s.byteLength, segments := sel.segments ++ [s] } where
  allow := h.allow
  spent := by
    have hspent := h.spent
    simp only [totalBytes, List.map_append, List.map_cons, List.map_nil, List.sum_append,
      List.sum_cons, List.sum_nil] at hspent ⊢
    omega
  listed := fun t ht => by
    rcases List.mem_append.mp ht with ht | ht
    · exact h.listed t ht
    · rwa [List.mem_singleton.mp ht]

/-- What a fetch selects from the segments of a manifest. -/
structure Selected (log : PartitionLog) (m : LogManifest) (offset : Int) (budget : Nat)
    (allow : Bool) (segments : List Segment) : Prop where
  /-- The segments lie end to end. -/
  tiles : ∃ a b, SegmentTiles segments a b
  /-- The first one has the wanted offset. -/
  first : ∀ s ∈ segments.head?, s.baseOffset ≤ offset ∧ offset < s.endOffset
  /-- They are the manifest's. -/
  listed : ∀ s ∈ segments, log.Lists m s
  /-- They fit the budget, or are the one that may exceed it. -/
  within : totalBytes segments ≤ budget ∨ allow = true ∧ segments.length = 1
  /-- There is one if one may exceed the budget. -/
  progress : allow = true → segments ≠ []

/-- Where the walk is when the selection stays incomplete. -/
private theorem Gathered.ne_nil {a : Int} (h : Gathered offset sel a) (ha : offset < a) :
    sel.segments ≠ [] := by
  obtain ⟨-, first, htiles, hfirst, -⟩ := h
  intro hnil
  rw [hnil] at htiles
  have := tiles_nil.mp htiles
  omega

end Budget

/-! ## The record objects -/

/-- The bytes are the whole record objects of the segments, one after the other. -/
def Whole (log : PartitionLog) (segments : List Segment) (bytes : List UInt8) : Prop :=
  ∃ objects : List (List UInt8),
    List.Forall₂ (fun s object => object.length = s.byteLength ∧
      log.crates.sha256Hex (.raw object) = s.sha256) segments objects ∧ bytes = objects.flatten

theorem Whole.length {segments : List Segment} {bytes : List UInt8}
    (h : self.Whole segments bytes) : bytes.length = totalBytes segments := by
  obtain ⟨objects, hobjects, rfl⟩ := h
  induction hobjects with
  | nil => rfl
  | cons hfirst _ ih => simp [ih, hfirst.1]

/-! ## A fetch -/

/-- What a fetch returns: the high watermark of a manifest that was loaded, and the records of
the segments that were selected from it, or none at the high watermark. -/
structure Fetched (log : PartitionLog) (offset : Int) (maximumBytes : Nat) (allow : Bool)
    (fetched : BoundedFetch) (segments : List Segment) : Prop where
  manifest : ∃ loaded, Yields log.loadManifest loaded ∧
    let m := (loaded.getD LoadedManifest.empty).manifest
    fetched.highWatermark = m.nextOffset ∧ m.startOffset ≤ offset ∧ offset ≤ m.nextOffset ∧
      if offset = m.nextOffset then segments = []
      else log.Selected m offset maximumBytes allow segments
  whole : log.Whole segments fetched.records

end PartitionLog

end Walstream.Log
