import Walstream.Group.OffsetRegister
import Walstream.Group.Tasks
import Walstream.Interaction.Turns

/-!
# The desk of the committed offsets

The store of committed offsets as the coordinator uses it: commits come to it one after the other,
each gets a number, and then sends requests to the object store. Requests can fail, and they can
arrive long after the coordinator has given up on them.

- `GroupStore.desk`: the store for the coordinator.
- `Revises`: what a commit does to the object of its group, which raises its revision.
- `wp_commit`: a commit in its turn makes such a change only, and an acknowledged one has made it.
-/

namespace Walstream.Group

open Interaction Log
open Std (ExtTreeMap)

/-! ## The store -/

/-- A commit at the store: how many commits of its group were there before, and what it commits. -/
structure Ticket where
  group : String
  number : Nat
  commits : List OffsetCommit

/-- The object store, and how many commits of each group have come to it. -/
structure Desk where
  bucket : Bucket Ticket Document
  begun : String → Nat

/-- A commit that comes to the store, or is at work there. -/
inductive DeskWork where
  | begin (group : String) (commits : List OffsetCommit)
  | busy (ticket : Ticket) (code : Prog (Cmd Document) Resp (Except GroupError Unit))

namespace GroupStore

variable (self : GroupStore) (json : OffsetJson)

/-- One step of a commit. -/
inductive DeskStep (f : Faults) :
    Desk → DeskWork → Desk → DeskWork ⊕ Except GroupError Unit → Prop where
  | begin {d : Desk} (group : String) (commits : List OffsetCommit) :
      DeskStep f d (.begin group commits)
        ⟨d.bucket, Function.update d.begun group (d.begun group + 1)⟩
        (.inl (.busy ⟨group, d.begun group, commits⟩ (self.commit json group commits).run))
  | act {d : Desk} {ticket : Ticket} {c : Cmd Document}
      {k : Resp c → Prog (Cmd Document) Resp (Except GroupError Unit)} {r : Resp c}
      {b : Bucket Ticket Document} (exec : Bucket.Executes f List.length ticket c d.bucket r b) :
      DeskStep f d (.busy ticket (.call c k)) ⟨b, d.begun⟩ (.inl (.busy ticket (k r)))
  | done {d : Desk} {ticket : Ticket} (result : Except GroupError Unit) :
      DeskStep f d (.busy ticket (.ret result)) d (.inr result)

/-- The store of committed offsets for the coordinator. -/
abbrev desk (f : Faults) : OffsetStore where
  Content := Desk
  Work := DeskWork
  commit := .begin
  Step := self.DeskStep json f

end GroupStore

/-! ## Revisions -/

section Revisions

variable {json : OffsetJson} {m : OffsetManifest} {commits : List OffsetCommit} {offsets : Offsets}

/-- The revision of a content, 0 where there is none. -/
def revisionOf (json : OffsetJson) (content : Option Document) : Nat :=
  ((manifestOf json content).map (·.revision)).getD 0

/-- What a commit writes has valid positions, and the next revision. -/
theorem OffsetManifest.next_spec {next : OffsetManifest} (hmap : m.offsetMap json = .ok offsets)
    (hcommits : validateCommits commits = .ok ()) (h : m.next json commits = .ok next) :
    next.schema = m.schema ∧ next.revision = m.revision + 1 ∧ next.revision ≤ u64Max ∧
      ∀ entry ∈ next.offsets, validatePosition entry.key entry.offset entry.metadata = .ok () := by
  obtain ⟨-, hvalid, hnodup⟩ := validateCommits_eq_ok.mp hcommits
  simp only [OffsetManifest.next, hmap, bind_eq_ok, rejectIf_eq_ok, okOr_eq_ok, Except.ok.injEq,
    pure, Except.pure, checkedAddU64_eq_some] at h
  obtain ⟨_, rfl, _, -, revision, ⟨hrevision, rfl⟩, rfl⟩ := h
  refine ⟨rfl, rfl, hrevision, fun entry hentry => ?_⟩
  obtain ⟨⟨key, position⟩, hmem, rfl⟩ := List.mem_map.mp hentry
  have hkey : (commitOffsets offsets commits).positions key = some position :=
    ExtTreeMap.mem_toList_iff_getElem?_eq_some.mp hmem
  -- a position is one of the commit, or was there before
  rw [commitOffsets_positions hnodup, Positions.override, Option.or_eq_some_iff] at hkey
  rcases hkey with hnew | ⟨-, hold⟩
  · obtain ⟨commit, hfind, rfl⟩ := Option.map_eq_some_iff.mp hnew
    obtain rfl : commit.key = key := by simpa using List.find?_some hfind
    exact hvalid commit (List.mem_of_find?_eq_some hfind)
  · exact m.acceptable hmap hold

/-- A commit raises the revision of the object. -/
theorem OffsetManifest.rewrite_revision {bytes : Document} {old : Option Document}
    (hold : manifestOf json old = some m) (hcommits : validateCommits commits = .ok ())
    (h : m.rewrite json commits = .ok bytes) : revisionOf json old < revisionOf json (some bytes) := by
  obtain ⟨hschema, offsets, hmap⟩ := manifestOf_valid hold
  obtain ⟨m', offsets', hwrites⟩ := OffsetManifest.rewrite_spec hschema hmap hcommits h
  obtain ⟨-, bytes', hbytes, -, hslice, -, -⟩ := acceptOffsets_eq_ok.mp hwrites.accepted
  obtain rfl : bytes = bytes' := Except.ok.inj hbytes
  -- the manifest that is read back has the revision that was written
  simp only [OffsetManifest.rewrite, bind_eq_ok, rejectIf_eq_ok, pure, Except.pure,
    Except.ok.injEq] at h
  obtain ⟨next, hnext, _, -, rfl⟩ := h
  obtain ⟨hschema', hrevision, hle, hentries⟩ := OffsetManifest.next_spec hmap hcommits hnext
  have hparse := json.parse_toVec next (hschema'.trans hschema) hle hentries
  simp only [OffsetJson.fromSlice, hparse, bind_eq_ok, pure, Except.pure, Except.ok.injEq] at hslice
  obtain ⟨parsed, rfl, entries, -, rfl⟩ := hslice
  unfold revisionOf
  rw [hold, manifestOf_accepted hwrites.accepted]
  show m.revision < next.revision
  omega

end Revisions

/-- What a commit does to the object of its group. -/
def Revises (json : OffsetJson) (ticket : Ticket) (old : Option Document) (new : Document) : Prop :=
  GroupStore.Overrides json (fun ticket : Ticket => .commit ticket.commits) ticket old new ∧
    revisionOf json old < revisionOf json (some new)

theorem revises_lt (json : OffsetJson) (ticket : Ticket) (old : Option Document) (new : Document)
    (h : Revises json ticket old new) : revisionOf json old < revisionOf json (some new) := h.2

/-! ## A commit in its turn -/

namespace GroupStore

variable {self : GroupStore} {json : OffsetJson} {f : Faults} {ticket : Ticket}

/-- The bucket, where revisions only rise. -/
abbrev DeskWorld (json : OffsetJson) := RisingBucket Ticket (revisionOf json)

/-- A commit at work on the object of its group. -/
abbrev deskArena (self : GroupStore) (json : OffsetJson) (f : Faults) (ticket : Ticket) :
    Arena (Cmd Document) Resp (Bucket Ticket Document) (DeskWorld json) :=
  turnArena (revises_lt json) f List.length ticket (self.offsetPath ticket.group)

/-- The object has, or has had, this content. -/
def Past (self : GroupStore) (json : OffsetJson) (ticket : Ticket) (loaded : LoadedOffsetManifest)
    (w : DeskWorld json) : Prop :=
  manifestOf json loaded.version = some loaded.manifest ∧
    revisionOf json loaded.version ≤ revisionOf json (w.bucket.objects (self.offsetPath ticket.group))

/-- The commit has changed the object of its group. -/
def Landed (self : GroupStore) (ticket : Ticket) (b : Bucket Ticket Document) : Prop :=
  ∃ e ∈ b.history, e.client = ticket ∧ e.path = self.offsetPath ticket.group

theorem Landed.later {b b' : Bucket Ticket Document} (h : self.Landed ticket b)
    (hle : b.Precedes b') : self.Landed ticket b' := by
  obtain ⟨e, he, hrest⟩ := h
  exact ⟨e, hle.subset he, hrest⟩

/-- What is loaded is a content that the object has had. -/
theorem ends_past {w : DeskWorld json} :
    (self.deskArena json f ticket).Ends (self.load json ticket.group) w
      (fun loaded w' => self.Past json ticket (loaded.getD .empty) w') (fun _ _ => True) := by
  apply Arena.ends_bind (P := fun r w' => Got f List.length w'.bucket (self.offsetPath ticket.group) r)
  · exact turn_get fun _ _ _ hgot => hgot
  · intro r w' _ hgot
    -- whatever part of the object arrives, only the whole of it is accepted
    have haccept : ∀ {size : Nat} {version : Document} {body : Except StoreError Document},
        (∀ bytes, body = .ok bytes → size = bytes.length ∧ version = bytes ∧
          w'.bucket.objects (self.offsetPath ticket.group) = some bytes) →
        (self.deskArena json f ticket).Ends
          (do return some (← ofResult (acceptOffsets json ⟨size, version, body⟩))) w'
          (fun loaded w' => self.Past json ticket (loaded.getD .empty) w') (fun _ _ => True) := by
      intro size version body hbody
      apply Arena.ends_bind (P := fun loaded w' => self.Past json ticket loaded w')
      · apply turn_ofResult _ fun _ _ => trivial
        intro loaded hloaded
        obtain ⟨-, bytes, rfl, -, -, -, hversion⟩ := acceptOffsets_eq_ok.mp hloaded
        obtain ⟨rfl, rfl, hcontent⟩ := hbody bytes rfl
        refine ⟨?_, ?_⟩
        · rw [hversion]
          exact manifestOf_accepted hloaded
        · rw [hversion, hcontent]
      · exact fun loaded w'' _ h => Arena.ends_pure h
    -- an absent object reads as the empty manifest, at revision 0
    cases hgot with
    | found h =>
      apply haccept
      intro bytes hbytes
      cases hbytes
      exact ⟨rfl, rfl, h⟩
    | missing h => exact Arena.ends_pure ⟨rfl, (congrArg (revisionOf json) h).ge⟩
    | interrupted _ h =>
      apply haccept
      intro bytes hbytes
      cases hbytes
    | failed => exact Arena.ends_throw trivial

/-- The attempts of a commit. -/
theorem ends_attempts (hcommits : validateCommits ticket.commits = .ok ()) (hne : ticket.commits ≠ [])
    (attempts : Nat) {w : DeskWorld json} :
    (self.deskArena json f ticket).Ends
      (self.commitAttempts json ticket.group ticket.commits attempts) w
      (fun _ w' => self.Landed ticket w'.bucket) (fun _ _ => True) := by
  induction attempts generalizing w with
  | zero => exact Arena.ends_throw trivial
  | succ attempts ih =>
    rw [commitAttempts]
    apply Arena.ends_bind ends_past
    intro loaded w₁ _ hpast
    dsimp only
    generalize loaded.getD .empty = loaded at hpast ⊢
    apply Arena.ends_bind (P := fun bytes w' => loaded.manifest.rewrite json ticket.commits =
      .ok bytes ∧ self.Past json ticket loaded w')
    · exact turn_ofResult (fun bytes h => ⟨h, hpast⟩) fun _ _ => trivial
    rintro bytes w₂ - ⟨hbytes, hmanifest, hle⟩
    -- the condition of the write holds only of the content that was loaded
    have hold : ∀ old, (loaded.version.elim .create .update : PutMode Document).Allows old →
        old = loaded.version := by
      intro old hallows
      cases hversion : loaded.version with
      | none =>
        rw [hversion] at hallows
        exact hallows
      | some version =>
        rw [hversion] at hallows
        exact hallows
    have hstep : Revises json ticket loaded.version bytes := by
      obtain ⟨hschema, offsets, hmap⟩ := manifestOf_valid hmanifest
      obtain ⟨m', offsets', hwrites⟩ := OffsetManifest.rewrite_spec hschema hmap hcommits hbytes
      exact ⟨⟨hcommits, hne, _, ⟨_, _, hmanifest, hmap, rfl⟩, m', offsets', hwrites⟩,
        OffsetManifest.rewrite_revision hmanifest hcommits hbytes⟩
    apply Arena.ends_bind (P := fun r w' => ∀ body, r = .ok body → self.Landed ticket w'.bucket)
    · apply turn_put
      · intro old hallows
        rw [hold old hallows]
        exact ⟨hstep, hle⟩
      · rintro w₃ - r b hput body rfl
        obtain ⟨-, rfl⟩ := hput.acknowledged
        exact ⟨_, List.mem_append_right _ List.mem_cons_self, rfl, rfl⟩
    · rintro (e | body) w₃ - hok
      · cases e with
        | alreadyExists => exact ih
        | precondition => exact ih
        | notFound => exact Arena.ends_throw trivial
        | generic => exact Arena.ends_throw trivial
      · exact Arena.ends_pure (hok body rfl)

/-- **A commit in its turn** changes nothing but the object of its group, and that only by
overriding a content which the object has had. An acknowledged commit has done so. -/
theorem wp_commit (hne : ticket.commits ≠ []) (w : DeskWorld json) :
    (self.deskArena json f ticket).wp (self.commit json ticket.group ticket.commits).run
      (fun r w' => r = .ok () → self.Landed ticket w'.bucket) w := by
  have hends : (self.deskArena json f ticket).Ends (self.commit json ticket.group ticket.commits) w
      (fun _ w' => self.Landed ticket w'.bucket) (fun _ _ => True) := by
    unfold commit
    apply Arena.ends_bind (P := fun _ _ => True)
    · exact turn_ofResult (fun _ _ => trivial) fun _ _ => trivial
    intro _ w₁ _ _
    apply Arena.ends_bind (P := fun _ _ => validateCommits ticket.commits = .ok ())
    · exact turn_ofResult (fun _ h => h) fun _ _ => trivial
    intro _ w₂ _ hcommits
    rw [if_neg hne]
    exact ends_attempts hcommits hne _
  apply Arena.wp_mono hends
  intro r w' _ hr heq
  rw [heq] at hr
  exact hr

end GroupStore

end Walstream.Group
