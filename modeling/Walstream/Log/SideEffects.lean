import Walstream.Interaction.Alone
import Walstream.Log.Reference
import Walstream.Log.Rejecting

/-!
# What rejected requests leave behind

The transcripts of an append that rejects its request, whatever the store answers and whatever
other clients do between two requests. Nothing is written in the attempt that rejects
(`prepareAppend_rejects`). What a rejected call may have written before stems from two places:
the topic was created (`Vacant`), or an earlier attempt had begun to append when the manifest
was replaced by another client (`Superseded`). Without both the call leaves no trace, and with
either of them it does (`rejection_harmless_iff`).
-/

namespace Walstream.Log

open Interaction

/-! ## Traces -/

/-- The exchange has left the objects as they were: nothing was to be written, or the store
refused the condition of the write. -/
def Untouching : Exchange (Cmd Body) Resp → Prop
  | ⟨.put _ _ _, .ok _⟩ => False
  | ⟨.put _ _ _, .error e⟩ => e.IsRefusal
  | ⟨.delete _, _⟩ => False
  | _ => True

/-- A store that does not misreport has indeed not changed anything. -/
theorem Untouching.executes {Client : Type} {f : Faults} (hf : ¬ f.misreport) {size : Body → Nat}
    {cl : Client} {c : Cmd Body} {r : Resp c} {b b' : Bucket Client Body}
    (h : Bucket.Executes f size cl c b r b') (hu : Untouching ⟨c, r⟩) :
    b'.objects = b.objects ∧ b'.inFlight = b.inFlight := by
  cases c with
  | get path => exact h.2 ▸ ⟨rfl, rfl⟩
  | head path => exact h.2 ▸ ⟨rfl, rfl⟩
  | list directory => exact h.2 ▸ ⟨rfl, rfl⟩
  | delete path => exact hu.elim
  | newV4 =>
    obtain ⟨-, rfl⟩ := h
    exact ⟨rfl, rfl⟩
  | put path body mode =>
    cases h with
    | written _ => exact hu.elim
    | refused _ _ => exact ⟨rfl, rfl⟩
    | lost _ | unacknowledged _ _ | delayed _ => exact hu.elim
    | misreported hmis _ _ => exact absurd hmis hf
    | spurious hmis _ => exact absurd hmis hf

theorem untouching_of_reads {t : Exchange (Cmd Body) Resp} (h : t.command.Reads) :
    Untouching t := by
  obtain ⟨c, r⟩ := t
  cases c with
  | get path => trivial
  | head path => trivial
  | put | delete | list | newV4 => exact h.elim

/-- The name of a new object was drawn. -/
def Begun (said : List (Exchange (Cmd Body) Resp)) : Prop := ∃ id, ⟨.newV4, id⟩ ∈ said

/-- An object was written or deleted, or may have been. -/
def Touched (said : List (Exchange (Cmd Body) Resp)) : Prop := ∃ t ∈ said, ¬ Untouching t

theorem not_begun_of_reads {said : List (Exchange (Cmd Body) Resp)}
    (h : ∀ t ∈ said, t.command.Reads) : ¬ Begun said := by
  rintro ⟨id, hid⟩
  exact h _ hid

theorem not_touched_iff {said : List (Exchange (Cmd Body) Resp)} :
    ¬ Touched said ↔ ∀ t ∈ said, Untouching t := by simp [Touched]

theorem Touched.append_left {said : List (Exchange (Cmd Body) Resp)} (h : Touched said)
    (before : List (Exchange (Cmd Body) Resp)) : Touched (before ++ said) := by
  obtain ⟨t, ht, hwrites⟩ := h
  exact ⟨t, List.mem_append_right _ ht, hwrites⟩

theorem Touched.append_right {said : List (Exchange (Cmd Body) Resp)} (h : Touched said)
    (after : List (Exchange (Cmd Body) Resp)) : Touched (said ++ after) := by
  obtain ⟨t, ht, hwrites⟩ := h
  exact ⟨t, List.mem_append_left _ ht, hwrites⟩

/-! ## Beginning to write -/

/-- Unless it fails for another reason than a missing object, the program only reads, or it
draws the name of an object and writes. -/
def Settles {α : Type} (x : Engine α) : Prop := ∀ said r, x.run.Talks said r →
  (∀ e, r = .error e → e.isMissing = true) →
    (∀ t ∈ said, t.command.Reads) ∨ Begun said ∧ Touched said

/-- Unless it fails for another reason than a missing object, the program writes. -/
def Persists {α : Type} (x : Engine α) : Prop := ∀ said r, x.run.Talks said r →
  (∀ e, r = .error e → e.isMissing = true) → Touched said

section Rules

variable {α β : Type}

theorem settles_of_reads {x : Engine α} (h : Obeys Cmd.Reads (fun _ => True) x) : Settles x :=
  fun said r ht _ => .inl (h said r ht).1

theorem settles_pure (a : α) : Settles (pure a : Engine α) := settles_of_reads obeys_pure

theorem settles_throw (e : LogError) : Settles (throw e : Engine α) :=
  settles_of_reads (obeys_throw trivial)

theorem settles_check (r : Except LogError α) : Settles (Engine.check r) :=
  settles_of_reads (obeys_check fun _ _ => trivial)

theorem settles_bind {x : Engine α} {f : α → Engine β} (hx : Settles x) (hf : ∀ a, Settles (f a)) :
    Settles (x >>= f) := by
  intro said r h hmissing
  rcases talks_run_bind h with ⟨e, hfirst, rfl⟩ | ⟨before, after, a, rfl, hbefore, hafter⟩
  · exact hx said _ hfirst fun e' he' => hmissing e' (by cases he'; rfl)
  · rcases hx before _ hbefore (by simp) with hreads | ⟨⟨id, hid⟩, htouched⟩
    · rcases hf a after r hafter hmissing with hreads' | ⟨⟨id, hid⟩, htouched⟩
      · exact .inl (List.forall_mem_append.mpr ⟨hreads, hreads'⟩)
      · exact .inr ⟨⟨id, List.mem_append_right _ hid⟩, htouched.append_left _⟩
    · exact .inr ⟨⟨id, List.mem_append_left _ hid⟩, htouched.append_right _⟩

/-- A name is drawn, and what comes next writes. -/
theorem settles_draw {f : Uuid → Engine α} (hf : ∀ id, Persists (f id)) :
    Settles (Engine.perform .newV4 >>= f) := by
  intro said r h hmissing
  obtain ⟨id, after, rfl, hafter⟩ := talks_run_perform h
  exact .inr ⟨⟨id, List.mem_cons_self⟩, (hf id after r hafter hmissing).append_left [⟨.newV4, id⟩]⟩

theorem talks_run_check {r r' : Except LogError α} {said : List (Exchange (Cmd Body) Resp)}
    (h : (Engine.check r).run.Talks said r') : said = [] ∧ r = r' := by
  cases h
  exact ⟨rfl, rfl⟩

theorem persists_check {r : Except LogError β} {f : β → Engine α}
    (hr : FailsWith (fun e => e.isMissing = false) r) (hf : ∀ b, Persists (f b)) :
    Persists (Engine.check r >>= f) := by
  intro said out h hmissing
  cases r with
  | ok b => exact hf b said out h hmissing
  | error e =>
    obtain ⟨rfl, rfl⟩ := talks_run_throw h
    have hno : e.isMissing = false := hr e rfl
    rw [hmissing e rfl] at hno
    cases hno

/-- A write whose condition is refused ends the program, for another reason than a missing
object. -/
theorem persists_put {path : String} {body : Body} {mode : PutMode Body} {f : Body → Engine α} :
    Persists (Engine.perform (.put path body mode) >>= fun answer => Engine.orStore answer >>= f) := by
  intro said r h hmissing
  obtain ⟨answer, after, rfl, hafter⟩ := talks_run_perform h
  refine ⟨_, List.mem_cons_self, ?_⟩
  cases answer with
  | ok body => exact fun hu => hu
  | error e =>
    obtain ⟨rfl, rfl⟩ := talks_run_throw hafter
    have hnotFound := hmissing _ rfl
    cases e with
    | notFound => exact fun hu => hu
    | alreadyExists | precondition | generic => cases hnotFound

end Rules

namespace PartitionLog

variable {self : PartitionLog}

/-- Pages are written under new names. -/
theorem settles_paginates : self.Paginates fun _ x => Settles x where
  pure := settles_pure
  bind := settles_bind
  overflow := settles_throw _
  malformed detail := settles_throw _
  readPage r := settles_of_reads (self.readPage_obeys mundane_true (fun _ => trivial) r)
  readProducerPage r nextOffset :=
    settles_of_reads (self.readProducerPage_obeys mundane_true (fun _ => trivial) r nextOffset)
  writePage page := by
    unfold writePage
    apply settles_bind (settles_check _)
    intro bounds
    dsimp only
    -- the page may be too large, which is found out before the write
    split
    · exact settles_throw _
    · apply settles_draw
      intro id
      have href : ∀ r, FailsWith (fun e => e.isMissing = false) (self.validatePageRef r) := by
        simp [validatePageRef, invalid, LogError.isMissing]
      -- a reference that is refused is no missing object
      exact persists_check (href _) fun _ => persists_put
  writeProducerPage page nextOffset := by
    unfold writeProducerPage
    apply settles_bind (settles_check _)
    intro bounds
    apply settles_draw
    intro id
    have href : ∀ r, FailsWith (fun e => e.isMissing = false) (self.validateProducerRef r) := by
      simp [validateProducerRef, invalid, LogError.isMissing]
    exact persists_check (href _) fun _ => persists_put

theorem appendAdditions_settles (receivedAtMs : Nat) (additions : List (List Record × Int))
    (root : Root) : Settles (self.appendAdditions receivedAtMs additions root) := by
  induction additions generalizing root with
  | nil => exact settles_pure _
  | cons addition additions ih =>
    unfold appendAdditions
    apply settles_bind (settles_paginates.sealFullTail root)
    intro root
    apply settles_bind (settles_check _)
    intro encoded
    apply settles_draw
    intro id
    have hrevision : FailsWith (fun e : LogError => e.isMissing = false)
        (okOr (checkedAddU64 root.revision 1) .revisionOverflow) :=
      failsWith_okOr rfl
    exact persists_check hrevision fun revision => persists_put

/-- The decision only reads, and what comes after it begins to write. -/
theorem prepareAppend_settles (manifest : LogManifest) (batches : List (List Record × String))
    (receivedAtMs : Nat) : Settles (self.prepareAppend manifest batches receivedAtMs) := by
  unfold prepareAppend
  apply settles_bind (settles_of_reads (decideBatches_reads _ _ _ _))
  intro d
  split
  · exact settles_pure _
  · apply settles_bind (settles_paginates.appendRoot manifest receivedAtMs)
    intro root
    apply settles_bind (appendAdditions_settles receivedAtMs d.additions root)
    intro root
    exact settles_bind (settles_paginates.updateProducers _ _ _) fun producers => settles_pure _

/-- An attempt that rejects the request only reads. -/
theorem prepareAppend_rejects {manifest : LogManifest} {batches : List (List Record × String)}
    (hp : 0 ≤ self.partition) (hbatches : ∀ batch ∈ batches, self.Admitted batch)
    {receivedAtMs : Nat} {said : List (Exchange (Cmd Body) Resp)} {e : LogError}
    (h : (self.prepareAppend manifest batches receivedAtMs).run.Talks said (.error e))
    (he : e.Rejects) : ∀ t ∈ said, t.command.Reads := by
  unfold prepareAppend at h
  rcases talks_run_bind h with ⟨e', hdecide, -⟩ | ⟨before, after, d, rfl, hdecide, hafter⟩
  · exact (decideBatches_reads _ _ _ _ said _ hdecide).1
  · split at hafter
    · cases (talks_run_pure hafter).2
    · -- nothing that comes after the decision rejects
      exfalso
      have hadditions := admitted_additions hbatches hdecide.returns
      have hrest := publishing_obeys LogError.rejects_mundane (fun h => h) (quiet_grants hp)
        hadditions manifest receivedAtMs
      exact (hrest after _ hafter).2 e rfl he

/-- A draft that is to be published has been begun. -/
theorem appendAdditions_begun {receivedAtMs : Nat} {additions : List (List Record × Int)}
    {root root' : Root} {said : List (Exchange (Cmd Body) Resp)}
    (h : (self.appendAdditions receivedAtMs additions root).run.Talks said (.ok root'))
    (hne : additions ≠ []) : Begun said := by
  obtain _ | ⟨addition, additions⟩ := additions
  · exact absurd rfl hne
  unfold appendAdditions at h
  rcases talks_run_bind h with ⟨_, -, hr⟩ | ⟨before, after, _, rfl, -, h⟩
  · cases hr
  rcases talks_run_bind h with ⟨_, -, hr⟩ | ⟨before', after', _, rfl, -, h⟩
  · cases hr
  obtain ⟨id, rest, rfl, -⟩ := talks_run_perform h
  exact ⟨id, by simp⟩

theorem prepareAppend_begun {manifest : LogManifest} {batches : List (List Record × String)}
    {receivedAtMs : Nat} {said : List (Exchange (Cmd Body) Resp)} {result : AppendResult}
    {next : Root}
    (h : (self.prepareAppend manifest batches receivedAtMs).run.Talks said
      (.ok (result, some next))) : Begun said ∧ Touched said := by
  have hbegun : Begun said := by
    unfold prepareAppend at h
    -- the manifest is read first; a failure there ends the preparation
    rcases talks_run_bind h with ⟨_, -, hr⟩ | ⟨before, after, d, rfl, -, h⟩
    · cases hr
    split at h
    · cases (talks_run_pure h).2
    rcases talks_run_bind h with ⟨_, -, hr⟩ | ⟨before', after', root, rfl, -, h⟩
    · cases hr
    -- a root was prepared, so the additions were stored, and each of them drew a name
    rcases talks_run_bind h with ⟨_, -, hr⟩ | ⟨said', _, root', rfl, hadditions, -⟩
    · cases hr
    obtain ⟨id, hid⟩ := appendAdditions_begun hadditions ‹_›
    exact ⟨id, by simp [hid]⟩
  refine ⟨hbegun, ?_⟩
  -- what began to write has not only read
  rcases prepareAppend_settles _ _ _ said _ h (by simp) with hreads | hdone
  · exact absurd hbegun (not_begun_of_reads hreads)
  · exact hdone.2

/-! ## The attempts -/

/-- The version that a GET was answered with. -/
def versionOf (answer : Except StoreError (GetResult Body)) : Option Body :=
  match answer with
  | .ok result => some result.version
  | .error _ => none

/-- The manifest is no longer the one that the attempt has loaded: its conditional write is
refused, or it is loaded with another version. -/
inductive Supersedes (log : PartitionLog) (loaded : Except StoreError (GetResult Body)) :
    Exchange (Cmd Body) Resp → Prop where
  | refused (body : Body) (mode : PutMode Body) {e : StoreError} (he : e.IsRefusal) :
      log.Supersedes loaded ⟨.put log.manifestPath body mode, .error e⟩
  | replaced (answer : Except StoreError (GetResult Body))
      (h : versionOf answer ≠ versionOf loaded) :
      log.Supersedes loaded ⟨.get log.manifestPath, answer⟩

/-- The manifest is replaced while an attempt is made that has already begun to write: the
attempt has loaded it and drawn the name of a new object before it finds out. -/
def Superseded (log : PartitionLog) (said : List (Exchange (Cmd Body) Resp)) : Prop :=
  ∃ before loaded between t after,
    said = before ++ ⟨.get log.manifestPath, loaded⟩ :: (between ++ t :: after) ∧
      Begun between ∧ log.Supersedes loaded t

theorem Superseded.append_left {said : List (Exchange (Cmd Body) Resp)} (h : self.Superseded said)
    (first : List (Exchange (Cmd Body) Resp)) : self.Superseded (first ++ said) := by
  obtain ⟨before, loaded, between, t, after, rfl, hbegun, ht⟩ := h
  exact ⟨first ++ before, loaded, between, t, after, by simp, hbegun, ht⟩

theorem Superseded.begun {said : List (Exchange (Cmd Body) Resp)} (h : self.Superseded said) :
    Begun said := by
  obtain ⟨before, loaded, between, t, after, rfl, ⟨id, hid⟩, -⟩ := h
  exact ⟨id, by simp [hid]⟩

/-- Loading a manifest is one request, and the version of what is loaded is in the answer. -/
theorem loadManifestOf_talks {partition : Int} {said : List (Exchange (Cmd Body) Resp)}
    {r : Except LogError (Option LoadedManifest)}
    (h : (self.loadManifestOf partition).run.Talks said r) :
    ∃ answer, said = [⟨.get (self.engine.manifestPath self.topic partition), answer⟩] ∧
      (∀ loaded, r = .ok loaded → loaded.map (·.version) = (versionOf answer).map some) ∧
      ∀ e, r = .error e → ¬ e.Rejects := by
  have herror := (self.loadManifestOf_obeys LogError.rejects_mundane
    (φ := fun _ => True) (fun _ => trivial) partition said r h).2
  unfold loadManifestOf at h
  obtain ⟨answer, after, rfl, hafter⟩ := talks_run_perform h
  clear h
  refine ⟨answer, ?_⟩
  -- the answer is absence, a manifest, or an error
  rcases answer with (_ | _ | _ | _) | result
  case error.notFound =>
    obtain ⟨rfl, rfl⟩ := talks_run_pure hafter
    exact ⟨rfl, by simp [versionOf], herror⟩
  case ok =>
    -- the manifest is accepted with the version of the answer, or refused
    rcases talks_run_bind hafter with ⟨e, hcheck, rfl⟩ | ⟨_, _, loaded, rfl, hcheck, hrest⟩
    · obtain ⟨rfl, -⟩ := talks_run_check hcheck
      exact ⟨rfl, by simp, herror⟩
    · obtain ⟨rfl, rfl⟩ := talks_run_pure hrest
      obtain ⟨rfl, haccept⟩ := talks_run_check hcheck
      refine ⟨rfl, ?_, herror⟩
      rintro _ ⟨⟩
      simp only [acceptManifest, bind_eq_ok, pure, Except.pure, Except.ok.injEq] at haccept
      obtain ⟨_, -, _, -, _, -, rfl⟩ := haccept
      rfl
  all_goals
    obtain ⟨rfl, rfl⟩ := talks_run_throw hafter
    exact ⟨rfl, by simp, herror⟩

theorem version_bind {loaded : Option LoadedManifest} {current : Option Body}
    (h : loaded.map (·.version) = current.map some) : loaded.bind (·.version) = current := by
  cases loaded <;> cases current <;> simp_all

theorem loadManifest_talks {said : List (Exchange (Cmd Body) Resp)}
    {r : Except LogError (Option LoadedManifest)} (h : self.loadManifest.run.Talks said r) :
    ∃ answer, said = [⟨.get self.manifestPath, answer⟩] ∧
      (∀ loaded, r = .ok loaded → loaded.bind (·.version) = versionOf answer) ∧
      ∀ e, r = .error e → ¬ e.Rejects := by
  obtain ⟨answer, hsaid, hversion, herror⟩ := loadManifestOf_talks h
  exact ⟨answer, hsaid, fun loaded hr => version_bind (hversion loaded hr), herror⟩

/-- Asking whether the manifest was replaced is one request, and only after an object was
missing. -/
theorem staleMissing_talks {version : Option UpdateVersion} {x : LogError}
    {said : List (Exchange (Cmd Body) Resp)} {r : Except LogError Bool}
    (h : (self.staleMissing version x).run.Talks said r) :
    x.isMissing = false ∧ said = [] ∧ r = .ok false ∨
      x.isMissing = true ∧ ∃ answer, said = [⟨.get self.manifestPath, answer⟩] ∧
        ((∃ e, r = .error e ∧ ¬ e.Rejects) ∨
          ∃ stale, r = .ok stale ∧ (stale = true → versionOf answer ≠ version)) := by
  unfold staleMissing at h
  split at h
  · rename_i hmissing
    refine .inr ⟨hmissing, ?_⟩
    -- only a missing object makes it look at the manifest again
    rcases talks_run_bind h with ⟨e, hload, rfl⟩ | ⟨_, _, current, rfl, hload, hrest⟩
    · obtain ⟨answer, rfl, -, hplain⟩ := loadManifest_talks hload
      exact ⟨answer, rfl, .inl ⟨e, rfl, hplain e rfl⟩⟩
    · obtain ⟨answer, rfl, hversion, -⟩ := loadManifest_talks hload
      obtain ⟨rfl, rfl⟩ := talks_run_pure hrest
      refine ⟨answer, rfl, .inr ⟨_, rfl, fun hstale => ?_⟩⟩
      rw [← hversion current rfl]
      exact of_decide_eq_true hstale
  · rename_i hmissing
    obtain ⟨rfl, rfl⟩ := talks_run_pure h
    exact .inl ⟨by simpa using hmissing, rfl, rfl⟩

/-- An attempt that is given up either has only read, as has the request that found out, or it
had begun to write. -/
private theorem given_up {loaded : Except StoreError (GetResult Body)}
    {attempted later : List (Exchange (Cmd Body) Resp)} {t : Exchange (Cmd Body) Resp}
    (ht : self.Supersedes loaded t)
    (hattempted : (∀ t ∈ attempted, t.command.Reads) ∧ t.command.Reads ∨
      Begun attempted ∧ Touched attempted)
    (hlater : (∀ t ∈ later, t.command.Reads) ∨ Touched later ∧ self.Superseded later) :
    (∀ t' ∈ ⟨.get self.manifestPath, loaded⟩ :: (attempted ++ t :: later), t'.command.Reads) ∨
      Touched (⟨.get self.manifestPath, loaded⟩ :: (attempted ++ t :: later)) ∧
        self.Superseded (⟨.get self.manifestPath, loaded⟩ :: (attempted ++ t :: later)) := by
  rcases hattempted with ⟨hreads, hread⟩ | ⟨hbegun, htouched⟩
  · have hsplit : ⟨.get self.manifestPath, loaded⟩ :: (attempted ++ t :: later) =
        (⟨.get self.manifestPath, loaded⟩ :: (attempted ++ [t])) ++ later := by simp
    rcases hlater with hlater | ⟨htouched, hsuperseded⟩
    · refine .inl (List.forall_mem_cons.mpr ⟨trivial, ?_⟩)
      exact List.forall_mem_append.mpr ⟨hreads, List.forall_mem_cons.mpr ⟨hread, hlater⟩⟩
    · rw [hsplit]
      exact .inr ⟨htouched.append_left _, hsuperseded.append_left _⟩
  · refine .inr ⟨?_, [], loaded, attempted, t, later, rfl, hbegun, ht⟩
    exact (htouched.append_right _).append_left [⟨.get self.manifestPath, loaded⟩]

/-- Attempts that end with a rejection have only read, or one of them was superseded after it had
begun to write. -/
theorem appendAttempts_rejects (hp : 0 ≤ self.partition) {batches : List (List Record × String)}
    (hbatches : ∀ batch ∈ batches, self.Admitted batch) {receivedAtMs attempts : Nat}
    {said : List (Exchange (Cmd Body) Resp)} {e : LogError}
    (h : (self.appendAttempts batches receivedAtMs attempts).run.Talks said (.error e))
    (he : e.Rejects) :
    (∀ t ∈ said, t.command.Reads) ∨ Touched said ∧ self.Superseded said := by
  -- over the attempts that are left, with the conversation of each
  induction attempts generalizing said with
  | zero =>
    obtain ⟨-, heq⟩ := talks_run_throw h
    cases heq
    exact he.elim
  | succ attempts ih =>
    rw [appendAttempts] at h
    -- the load fails, or what is loaded has the version of the answer
    rcases talks_run_bind h with ⟨_, hload, heq⟩ | ⟨_, after, loaded, rfl, hload, hloaded⟩
    · obtain ⟨_, -, -, hplain⟩ := loadManifest_talks hload
      cases heq
      exact absurd he (hplain _ rfl)
    obtain ⟨answer, rfl, hversion, -⟩ := loadManifest_talks hload
    replace hversion := hversion loaded rfl
    clear h hload
    dsimp only at hloaded
    obtain ⟨attempted, rest, outcome, rfl, hattempted, h⟩ := talks_run_attempt hloaded
    clear hloaded
    rcases outcome with x | ⟨result, _ | next⟩
    · -- the attempt failed: it is repeated when an object is missing from an old manifest
      dsimp only at h
      rcases talks_run_bind h with ⟨x', hask, heq⟩ | ⟨asked, later, stale, rfl, hask, hrest⟩
      · cases heq
        rcases staleMissing_talks hask with ⟨-, -, heq⟩ | ⟨-, _, -, ⟨_, heq, hplain⟩ | ⟨_, heq, -⟩⟩
        · cases heq
        · cases heq
          exact absurd he hplain
        · cases heq
      rcases staleMissing_talks hask with ⟨-, rfl, heq⟩ | ⟨hmissing, answer', rfl, hasked⟩
      · cases heq
        obtain ⟨rfl, heq⟩ := talks_run_throw hrest
        cases heq
        refine .inl (List.forall_mem_cons.mpr ⟨trivial, ?_⟩)
        simpa using prepareAppend_rejects hp hbatches hattempted he
      obtain ⟨_, heq, hstale⟩ := hasked.resolve_left (by rintro ⟨_, heq, -⟩; cases heq)
      cases heq
      cases stale with
      -- the manifest was replaced, and the next attempt decides
      | true =>
        have hsettled := prepareAppend_settles _ _ _ attempted _ hattempted (by simpa using hmissing)
        have hreplaced : versionOf answer' ≠ versionOf answer := by
          rw [← hversion]
          cases loaded <;> exact hstale rfl
        exact given_up (.replaced answer' hreplaced)
          (hsettled.imp_left fun hreads => ⟨hreads, trivial⟩) (ih hrest)
      -- the manifest is the one of before, and something is missing from it
      | false =>
        obtain ⟨-, heq⟩ := talks_run_throw hrest
        cases heq
        exact absurd he (LogError.not_rejects_of_missing hmissing)
    · cases (talks_run_pure h).2
    · -- the attempt was made: it is repeated when the write of the manifest is refused
      have hbegun := prepareAppend_begun hattempted
      dsimp only at h
      rcases talks_run_bind h with ⟨x, hcheck, heq⟩ | ⟨_, later, _, rfl, hcheck, hchecked⟩
      · obtain ⟨-, hroot⟩ := talks_run_check hcheck
        cases heq
        exact absurd he (self.validateRoot_failsWith LogError.rejects_mundane next _ hroot)
      obtain ⟨rfl, -⟩ := talks_run_check hcheck
      clear h
      split at hchecked
      · obtain ⟨-, heq⟩ := talks_run_throw hchecked
        cases heq
        exact he.elim
      obtain ⟨put, later, rfl, hput⟩ := talks_run_perform hchecked
      clear hchecked
      rcases put with (_ | _ | _ | _) | _
      -- refused: the next attempt decides, and this one has begun to write
      case error.alreadyExists => exact given_up (.refused _ _ trivial) (.inr hbegun) (ih hput)
      case error.precondition => exact given_up (.refused _ _ trivial) (.inr hbegun) (ih hput)
      case ok => cases (talks_run_pure hput).2
      all_goals
        cases (talks_run_throw hput).2
        exact he.elim

/-! ## The topic -/

/-- The number of partitions of a new topic, after this answer to the request for the manifest of
its first partition. -/
def initialPartitionCount (defaultPartitions : PartitionCount)
    (answer : Except StoreError (GetResult Body)) : Int :=
  match answer with
  | .ok _ => Log.defaultTopicPartitions
  | .error _ => defaultPartitions.value

/-- The topic has no metadata, the partition is in the range of a new topic, and no other client
is the first to create it. -/
def Vacant (log : PartitionLog) (defaultPartitions : PartitionCount)
    (said : List (Exchange (Cmd Body) Resp)) : Prop :=
  ∃ answer later,
    said = ⟨.get log.topicMetadataPath, .error .notFound⟩ ::
      ⟨.get (log.engine.manifestPath log.topic 0), answer⟩ :: later ∧
    validatePartition log.partition (initialPartitionCount defaultPartitions answer) = .ok () ∧
    ∀ body e rest, later = ⟨.put log.topicMetadataPath body .create, .error e⟩ :: rest →
      ¬ e.IsRefusal

/-- Loading the topic's metadata is one request. -/
theorem loadTopicMetadata_talks {said : List (Exchange (Cmd Body) Resp)}
    {r : Except LogError (Option TopicMetadata)} (h : self.loadTopicMetadata.run.Talks said r) :
    ∃ answer, said = [⟨.get self.topicMetadataPath, answer⟩] ∧
      (r = .ok none → answer = .error .notFound) ∧
      (∀ metadata, r = .ok (some metadata) → ∃ result, answer = .ok result) ∧
      ∀ e, r = .error e → ¬ e.Rejects := by
  have herror := (self.loadTopicMetadata_obeys LogError.rejects_mundane
    (φ := fun _ => True) (fun _ => trivial) said r h).2
  unfold loadTopicMetadata at h
  obtain ⟨answer, after, rfl, hafter⟩ := talks_run_perform h
  clear h
  refine ⟨answer, ?_⟩
  rcases answer with (_ | _ | _ | _) | result
  case error.notFound =>
    obtain ⟨rfl, rfl⟩ := talks_run_pure hafter
    exact ⟨rfl, fun _ => rfl, by simp, herror⟩
  case ok =>
    rcases talks_run_bind hafter with ⟨e, hcheck, rfl⟩ | ⟨_, _, loaded, rfl, hcheck, hrest⟩
    · obtain ⟨rfl, -⟩ := talks_run_check hcheck
      exact ⟨rfl, by simp, by simp, herror⟩
    · obtain ⟨rfl, rfl⟩ := talks_run_pure hrest
      obtain ⟨rfl, -⟩ := talks_run_check hcheck
      exact ⟨rfl, by simp, fun _ _ => ⟨result, rfl⟩, herror⟩
  all_goals
    obtain ⟨rfl, rfl⟩ := talks_run_throw hafter
    exact ⟨rfl, by simp, by simp, herror⟩

/-- The metadata is created, or somebody else was first. -/
theorem createTopicMetadata_talks {partitionCount : Int}
    {said : List (Exchange (Cmd Body) Resp)} {r : Except LogError Int}
    (h : (self.createTopicMetadata partitionCount).run.Talks said r) :
    (∃ body stored, said = [⟨.put self.topicMetadataPath body .create, .ok stored⟩] ∧
        r = .ok partitionCount) ∨
      (∃ body e answer, e.IsRefusal ∧ said = [⟨.put self.topicMetadataPath body .create, .error e⟩,
        ⟨.get self.topicMetadataPath, answer⟩]) ∨ ∃ e, r = .error e ∧ ¬ e.Rejects := by
  unfold createTopicMetadata at h
  obtain ⟨put, after, rfl, hafter⟩ := talks_run_perform h
  clear h
  -- somebody else's metadata is loaded
  have hload : ∀ {after : Option TopicMetadata → Engine Int} {said r},
      (∀ metadata, after (some metadata) = pure metadata.partitionCount) →
      after none = throw (.unknownTopic self.topic) →
      (self.loadTopicMetadata >>= after).run.Talks said r →
      (∃ answer, said = [⟨.get self.topicMetadataPath, answer⟩]) ∨
        ∃ e, r = .error e ∧ ¬ e.Rejects := by
    intro after said r hsome hnone h
    rcases talks_run_bind h with ⟨e, hload, rfl⟩ | ⟨_, _, loaded, rfl, hload, hloaded⟩
    · obtain ⟨_, -, -, -, hplain⟩ := loadTopicMetadata_talks hload
      exact .inr ⟨e, rfl, hplain e rfl⟩
    · obtain ⟨answer, rfl, -⟩ := loadTopicMetadata_talks hload
      cases loaded with
      | some metadata =>
        rw [hsome] at hloaded
        obtain ⟨rfl, -⟩ := talks_run_pure hloaded
        exact .inl ⟨answer, rfl⟩
      | none =>
        rw [hnone] at hloaded
        obtain ⟨-, rfl⟩ := talks_run_throw hloaded
        exact .inr ⟨_, rfl, fun h => h⟩
  rcases put with (_ | _ | _ | _) | stored
  case ok =>
    obtain ⟨rfl, rfl⟩ := talks_run_pure hafter
    exact .inl ⟨_, stored, rfl, rfl⟩
  case error.alreadyExists =>
    refine .inr ((hload (fun _ => rfl) rfl hafter).imp_left ?_)
    rintro ⟨answer, rfl⟩
    exact ⟨_, .alreadyExists, answer, trivial, rfl⟩
  case error.precondition =>
    refine .inr ((hload (fun _ => rfl) rfl hafter).imp_left ?_)
    rintro ⟨answer, rfl⟩
    exact ⟨_, .precondition, answer, trivial, rfl⟩
  all_goals
    obtain ⟨-, rfl⟩ := talks_run_throw hafter
    exact .inr (.inr ⟨_, rfl, fun h => h⟩)

/-- What a call does for a topic without metadata, unless something fails. -/
inductive Creation (log : PartitionLog) (found : Except StoreError (GetResult Body)) (count : Int) :
    List (Exchange (Cmd Body) Resp) → Prop where
  | outside (h : validatePartition log.partition count ≠ .ok ()) :
      log.Creation found count [⟨.get (log.engine.manifestPath log.topic 0), found⟩]
  | created (h : validatePartition log.partition count = .ok ()) (body stored : Body) :
      log.Creation found count [⟨.get (log.engine.manifestPath log.topic 0), found⟩,
        ⟨.put log.topicMetadataPath body .create, .ok stored⟩]
  | refused {e : StoreError} (he : e.IsRefusal) (body : Body)
      (answer : Except StoreError (GetResult Body)) :
      log.Creation found count [⟨.get (log.engine.manifestPath log.topic 0), found⟩,
        ⟨.put log.topicMetadataPath body .create, .error e⟩,
        ⟨.get log.topicMetadataPath, answer⟩]

/-- The last check of `ensure_topic` asks nothing. -/
private theorem lastCheck_talks {count : Int} {said : List (Exchange (Cmd Body) Resp)}
    {r : Except LogError Int} (h : (do
      Engine.check (validatePartition self.partition count)
      return count : Engine Int).run.Talks said r) : said = [] := by
  rcases talks_run_bind h with ⟨_, hcheck, -⟩ | ⟨_, _, _, rfl, hcheck, hrest⟩
  · exact (talks_run_check hcheck).1
  · rw [(talks_run_check hcheck).1, (talks_run_pure hrest).1, List.append_nil]

theorem creation_talks {defaultPartitions : PartitionCount} {said : List (Exchange (Cmd Body) Resp)}
    {r : Except LogError Int} (h : (do
      let partitionCount := match ← self.loadManifestOf 0 with
        | some _ => Log.defaultTopicPartitions
        | none => defaultPartitions.value
      Engine.check (validatePartition self.partition partitionCount)
      let partitionCount ← self.createTopicMetadata partitionCount
      Engine.check (validatePartition self.partition partitionCount)
      return partitionCount : Engine Int).run.Talks said r)
    (hr : ∀ e, r = .error e → e.Rejects) :
    ∃ found, self.Creation found (initialPartitionCount defaultPartitions found) said := by
  rcases talks_run_bind h with ⟨e, hload, rfl⟩ | ⟨_, after, loaded, rfl, hload, hloaded⟩
  · obtain ⟨_, -, -, hplain⟩ := loadManifestOf_talks hload
    exact absurd (hr e rfl) (hplain e rfl)
  obtain ⟨found, rfl, hversion, -⟩ := loadManifestOf_talks hload
  replace hversion := hversion loaded rfl
  clear h
  -- the metadata is created with the count that belongs to the answer
  have hcreate : ∀ count, initialPartitionCount defaultPartitions found = count → (do
      Engine.check (validatePartition self.partition count)
      let partitionCount ← self.createTopicMetadata count
      Engine.check (validatePartition self.partition partitionCount)
      return partitionCount : Engine Int).run.Talks after r →
      self.Creation found count ([⟨.get (self.engine.manifestPath self.topic 0), found⟩] ++ after) := by
    rintro count - hcount
    rcases talks_run_bind hcount with ⟨e, hcheck, rfl⟩ | ⟨_, _, _, rfl, hcheck, hchecked⟩
    · obtain ⟨rfl, hpartition⟩ := talks_run_check hcheck
      exact .outside (by simp [hpartition])
    obtain ⟨rfl, hpartition⟩ := talks_run_check hcheck
    rcases talks_run_bind hchecked with ⟨e, hcreate, rfl⟩ | ⟨_, _, created, rfl, hcreate, hlast⟩
    · rcases createTopicMetadata_talks hcreate with ⟨_, _, -, heq⟩ | ⟨body, e', answer, he, rfl⟩ |
          ⟨_, heq, hplain⟩
      · cases heq
      · exact .refused he body answer
      · cases heq
        exact absurd (hr e rfl) hplain
    · obtain rfl := lastCheck_talks hlast
      rcases createTopicMetadata_talks hcreate with ⟨body, stored, rfl, heq⟩ |
          ⟨body, e, answer, he, rfl⟩ | ⟨_, heq, -⟩
      · exact .created hpartition body stored
      · exact .refused he body answer
      · cases heq
  refine ⟨found, ?_⟩
  rcases found with _ | _ <;> rcases loaded with _ | loaded <;> simp [versionOf] at hversion
  · exact hcreate _ rfl hloaded
  · exact hcreate _ rfl hloaded

/-- Ensuring a topic touches the store exactly when the topic is vacant. -/
theorem ensureTopic_talks (htopic : validateTopic self.topic = .ok ())
    {defaultPartitions : PartitionCount} {said : List (Exchange (Cmd Body) Resp)}
    {r : Except LogError Int} (h : (self.ensureTopic defaultPartitions).run.Talks said r)
    (hr : ∀ e, r = .error e → e.Rejects) (rest : List (Exchange (Cmd Body) Resp)) :
    ¬ Begun said ∧ (Touched said ↔ self.Vacant defaultPartitions (said ++ rest)) := by
  unfold ensureTopic at h
  rcases talks_run_bind h with ⟨_, hcheck, rfl⟩ | ⟨_, _, _, rfl, hcheck, hchecked⟩
  · cases htopic.symm.trans (talks_run_check hcheck).2
  obtain ⟨rfl, -⟩ := talks_run_check hcheck
  clear h
  rcases talks_run_bind hchecked with ⟨e, hload, rfl⟩ | ⟨_, after, loaded, rfl, hload, hloaded⟩
  · obtain ⟨_, -, -, -, hplain⟩ := loadTopicMetadata_talks hload
    exact absurd (hr e rfl) (hplain e rfl)
  obtain ⟨answer, rfl, hnone, hsome, -⟩ := loadTopicMetadata_talks hload
  clear hchecked
  cases loaded with
  | some metadata =>
    -- there is metadata
    obtain ⟨result, rfl⟩ := hsome metadata rfl
    obtain rfl : after = [] := by
      rcases talks_run_bind hloaded with ⟨_, hfound, -⟩ | ⟨_, _, count, rfl, hfound, hlast⟩
      · cases (talks_run_pure hfound).2
      · rw [(talks_run_pure hfound).1, lastCheck_talks hlast, List.append_nil]
    refine ⟨by simp [Begun], iff_of_false ?_ ?_⟩
    · simp [Touched, Untouching]
    · rintro ⟨answer, later, heq, -⟩
      simp at heq
  | none =>
    obtain rfl := hnone rfl
    -- there is none: the call looks for an old manifest, and creates the topic
    obtain ⟨found, hcreation⟩ := creation_talks hloaded hr
    cases hcreation with
    | outside hpartition =>
      refine ⟨by simp [Begun], iff_of_false (by simp [Touched, Untouching]) ?_⟩
      rintro ⟨found', later, heq, hpartition', -⟩
      simp at heq
      obtain ⟨rfl, -⟩ := heq
      exact hpartition hpartition'
    | created hpartition body stored =>
      refine ⟨by simp [Begun], iff_of_true (by simp [Touched, Untouching]) ?_⟩
      exact ⟨found, _, rfl, hpartition, by simp⟩
    | refused he body answer =>
      refine ⟨by simp [Begun], iff_of_false (by simp [Touched, Untouching, he]) ?_⟩
      rintro ⟨found', later, heq, -, hfirst⟩
      simp at heq
      obtain ⟨rfl, rfl⟩ := heq
      exact hfirst _ _ _ rfl he

/-- **When rejected requests have no side effect.** Whatever the store answers and whoever else
uses it: an append that rejects its request has left the objects as they were exactly when it did
not create its topic, and the manifest was not replaced while an attempt was made that had already
begun to write. -/
theorem rejection_harmless_iff (log : PartitionLog) (defaultPartitions : PartitionCount)
    (clock : Option Nat) (batches : List (List Record))
    (said : List (Exchange (Cmd Body) Resp)) (e : LogError)
    (h : (log.appendBatches defaultPartitions clock batches).run.Talks said (.error e))
    (he : e.Rejects) : (∀ t ∈ said, Untouching t) ↔
      ¬ log.Vacant defaultPartitions said ∧ ¬ log.Superseded said := by
  -- without a request nothing was touched, created or superseded
  have hnothing : (∀ t ∈ ([] : List (Exchange (Cmd Body) Resp)), Untouching t) ↔
      ¬ log.Vacant defaultPartitions [] ∧ ¬ log.Superseded [] := by
    refine iff_of_true (by simp) ⟨?_, ?_⟩
    · rintro ⟨_, _, heq, -⟩
      cases heq
    · intro hsuperseded
      obtain ⟨id, hid⟩ := hsuperseded.begun
      cases hid
  unfold appendBatches at h
  -- the checks and the clock come before the first request
  rcases talks_run_bind h with ⟨_, hchecks, -⟩ | ⟨_, _, fingerprints, rfl, hchecks, hadmitted⟩
  · obtain ⟨rfl, -⟩ := talks_run_check hchecks
    exact hnothing
  obtain ⟨rfl, hadmit⟩ := talks_run_check hchecks
  obtain ⟨htopic, hp, -, -, hbatches⟩ := admitBatches_eq_ok hadmit
  clear h
  rcases talks_run_bind hadmitted with ⟨_, hclock, -⟩ | ⟨_, _, now, rfl, hclock, hread⟩
  · obtain ⟨rfl, -⟩ := talks_run_check hclock
    exact hnothing
  obtain ⟨rfl, -⟩ := talks_run_check hclock
  clear hadmitted
  simp only [List.nil_append]
  rw [← not_touched_iff, ← not_or]
  apply not_congr
  -- the topic is looked up or created, and the attempts follow
  rcases talks_run_bind hread with ⟨_, hensure, heq⟩ | ⟨ensured, rest, _, rfl, hensure, hattempts⟩
  · -- the partition is outside the range of the topic
    cases heq
    obtain ⟨hbegun, htouched⟩ := ensureTopic_talks htopic hensure (fun _ he' => by cases he'; exact he) []
    rw [List.append_nil] at htouched
    exact htouched.trans (or_iff_left fun hsuperseded => hbegun hsuperseded.begun).symm
  · obtain ⟨hbegun, htouched⟩ := ensureTopic_talks htopic hensure (by simp) rest
    rcases appendAttempts_rejects hp hbatches hattempts he with hreads | ⟨hwritten, hsuperseded⟩
    · -- the attempts only read, so that everything was decided before them
      have hrest : Touched (ensured ++ rest) ↔ Touched ensured := by
        refine ⟨?_, fun hensured => hensured.append_right rest⟩
        rintro ⟨t, ht, hwrites⟩
        rcases List.mem_append.mp ht with ht | ht
        · exact ⟨t, ht, hwrites⟩
        · exact absurd (untouching_of_reads (hreads t ht)) hwrites
      have hnever : ¬ log.Superseded (ensured ++ rest) := by
        intro hsuperseded
        obtain ⟨id, hid⟩ := hsuperseded.begun
        rcases List.mem_append.mp hid with hid | hid
        · exact hbegun ⟨id, hid⟩
        · exact not_begun_of_reads hreads ⟨id, hid⟩
      rw [hrest, htouched]
      exact (or_iff_left hnever).symm
    -- an attempt was superseded after it had begun to write
    · exact iff_of_true (hwritten.append_left _) (.inr (hsuperseded.append_left _))

end PartitionLog

/-! ## A sequence that starts too late -/

namespace Reference

/-- The second record of producer 0. -/
def lateRecord : Record := { numberedRecord with sequence := 1 }

/-- Everything after the base offset in the batch of `lateRecord`. -/
def lateTail : List UInt8 :=
  [0, 0, 0, 57, 255, 255, 255, 255, 2, 99, 210, 233, 42, 0, 0, 0, 0, 0, 0, 0, 0, 0, 0, 0, 0, 0,
    1, 0, 0, 0, 0, 0, 0, 0, 1, 0, 0, 0, 0, 0, 0, 0, 0, 0, 0, 0, 0, 0, 1, 0, 0, 0, 1, 14, 0, 0,
    0, 1, 2, 97, 0]

def encodeLate : List Record → Except String (List UInt8)
  | [r] =>
    if place r 0 = lateRecord then .ok (toBeBytes r.offset ++ lateTail)
    else .error "unsupported record"
  | _ => .error "unsupported records"

def decodeLate (bytes : List UInt8) : Option Record :=
  if bytes.drop 8 = lateTail then some (place lateRecord (fromBeBytes (bytes.take 8))) else none

theorem encodeLate_shift {records : List Record} {bytes : List UInt8} (delta : Int)
    (h : encodeLate records = .ok bytes) :
    ∃ bytes', encodeLate (records.map (Record.shift delta)) = .ok bytes' ∧
      bytes'.length = bytes.length := by
  unfold encodeLate at h
  split at h
  · rename_i r
    split at h
    · rename_i hlate
      cases h
      have hshift : place (r.shift delta) 0 = lateRecord := hlate
      refine ⟨toBeBytes (r.offset + delta) ++ lateTail, ?_, by simp⟩
      simp only [List.map_cons, List.map_nil, encodeLate, if_pos hshift]
      rfl
    · cases h
  · cases h

/-- The crates with the codec of the late record. -/
def lateCrates : Crates :=
  { crates with
    encode := encodeLate
    encode_shift := fun _ delta _ h _ => encodeLate_shift delta h
    decodeBatchInfo := fun bytes => (decodeLate bytes).map fun r =>
      ([⟨1, false, r.offset, r.timestamp, r.sequence, r.producerId⟩], [])
    decodeAll := fun bytes => (decodeLate bytes).map fun r => ([[r]], []) }

def lateLog : PartitionLog := ⟨lateCrates, engine, "t", 0⟩

/-- A store without objects. -/
def nothing : Bucket Unit Body := .initial (fun _ => none) ∅

/-- A producer's first request starts with its second record. -/
def lateAppend : Engine AppendResult :=
  lateLog.appendBatches ⟨1, by decide⟩ (some 0) [[lateRecord]]

/-- The request is rejected, and the topic is there. -/
theorem lateAppend_runs : ∃ cs b', Runs (Bucket.Executes Faults.none lateLog.crates.size ()) nothing
    lateAppend.run cs (.error .outOfOrderSequence) b' ∧
      b'.objects lateLog.topicMetadataPath ≠ none := by
  have hsolo : (lateAppend.run.solo (Bucket.reply lateLog.crates.size ()) nothing).any
      (fun p => decide (p.2.1 = .error .outOfOrderSequence) &&
        (p.2.2.objects lateLog.topicMetadataPath).isSome) = true := by
    decide +kernel
  obtain ⟨⟨cs, r, b'⟩, hsolo, hcheck⟩ := (Option.any_eq_true _ _).mp hsolo
  simp only [Bool.and_eq_true, decide_eq_true_eq] at hcheck
  obtain ⟨rfl, hsome⟩ := hcheck
  have hreply : ∀ c b r b', Bucket.reply lateLog.crates.size () c b = some (r, b') →
      Bucket.Executes Faults.none lateLog.crates.size () c b r b' :=
    fun _ _ _ _ => Bucket.executes_of_reply
  exact ⟨cs, b', Prog.solo_runs hreply hsolo, Option.isSome_iff_ne_none.mp hsome⟩

/-- The store when the topic of the late request has been created. -/
def createdTopic (path : String) : Option Body :=
  if path = lateLog.topicMetadataPath then some (.metadata ⟨topicMetadataSchema, 1⟩) else none

/-- The directory of another client, in which producer 0 has a newer epoch. -/
def rivalPage : ProducerPage := .leaf [⟨0, 1, [⟨0, 1, 0, fingerprint⟩]⟩]

def rivalRef : ProducerRef where
  object := log.producerPath 7
  firstId := 0
  lastId := 0
  count := 1
  level := 0
  byteLength := crates.size (.producerPage rivalPage)
  sha256 := crates.sha256Hex (.producerPage rivalPage)

/-- The log of the other client. -/
def rivalLog (path : String) : Option Body :=
  if path = log.topicMetadataPath then some (.metadata ⟨topicMetadataSchema, 1⟩)
  else if path = log.manifestPath then some (.manifest (.indexed { root with producers := some rivalRef }))
  else if path = rivalRef.object then some (.producerPage rivalPage)
  else none

/-- A store with these objects that acknowledges every write. -/
def obliging (objects : String → Option Body) (id : Uuid) : (c : Cmd Body) → Resp c
  | .put _ body _ => .ok body
  | .newV4 => id
  | c => frozen crates.size objects c

/-- A store in which the object to be created is already there. -/
def occupied (objects : String → Option Body) : (c : Cmd Body) → Resp c
  | .put _ _ _ => .error .alreadyExists
  | c => frozen crates.size objects c

/-- The first attempt loads no manifest and creates two objects; then the manifest of the other
client is there. -/
def overtaking : List ((c : Cmd Body) → Resp c) :=
  [obliging createdTopic 0, obliging createdTopic 0, obliging createdTopic 1,
    obliging createdTopic 0, obliging createdTopic 2, obliging createdTopic 0, occupied rivalLog,
    obliging rivalLog 0, obliging rivalLog 0]

def numberedAppend : Engine AppendResult :=
  log.appendBatches ⟨1, by decide⟩ (some 0) [[numberedRecord]]

/-- The first answer says that there is an object. -/
def foundFirst : List (Exchange (Cmd Body) Resp) → Bool
  | ⟨.get _, .ok _⟩ :: _ => true
  | _ => false

theorem not_vacant_of_foundFirst {log : PartitionLog} {defaultPartitions : PartitionCount}
    {said : List (Exchange (Cmd Body) Resp)} (h : foundFirst said = true) :
    ¬ log.Vacant defaultPartitions said := by
  rintro ⟨_, _, rfl, -⟩
  cases h

def draws : Exchange (Cmd Body) Resp → Bool
  | ⟨.newV4, _⟩ => true
  | _ => false

def touches : Exchange (Cmd Body) Resp → Bool
  | ⟨.put _ _ _, .ok _⟩ => true
  | _ => false

/-- The late request leaves a topic that exists as it is. The request of an old epoch does not:
the first write shows that it was superseded, which the second attempt finds out. -/
theorem rejection_harmless_iff_runs :
    (∃ said, lateAppend.run.Talks said (.error .outOfOrderSequence) ∧ said ≠ [] ∧
      ∀ t ∈ said, Untouching t) ∧
    ∃ said, numberedAppend.run.Talks said (.error .invalidProducerEpoch) ∧ Touched said ∧
      log.Superseded said := by
  -- the first run is rejected by its first attempt
  constructor
  · have hreplay : (lateAppend.run.replay (List.replicate 2 (obliging createdTopic 0))).any (fun p =>
        foundFirst p.1 && !p.1.any draws && decide (p.2 = .error .outOfOrderSequence)) = true := by
      decide +kernel
    obtain ⟨⟨said, r⟩, hreplay, hchecks⟩ := (Option.any_eq_true _ _).mp hreplay
    simp only [Bool.and_eq_true, Bool.not_eq_true', decide_eq_true_eq] at hchecks
    obtain ⟨⟨hfound, hdraws⟩, rfl⟩ := hchecks
    have htalks := Prog.replay_talks hreplay
    refine ⟨said, htalks, ?_, ?_⟩
    · rintro rfl
      cases hfound
    · refine (PartitionLog.rejection_harmless_iff lateLog _ _ _ said _ htalks trivial).mpr
        ⟨not_vacant_of_foundFirst hfound, fun hsuperseded => ?_⟩
      obtain ⟨id, hid⟩ := hsuperseded.begun
      have := List.any_eq_false.mp hdraws _ hid
      exact this rfl
  -- the second run is rejected by its second attempt
  · have hreplay : (numberedAppend.run.replay overtaking).any (fun p =>
        foundFirst p.1 && p.1.any touches && decide (p.2 = .error .invalidProducerEpoch)) = true := by
      decide +kernel
    obtain ⟨⟨said, r⟩, hreplay, hchecks⟩ := (Option.any_eq_true _ _).mp hreplay
    simp only [Bool.and_eq_true, decide_eq_true_eq, List.any_eq_true] at hchecks
    obtain ⟨⟨hfound, t, ht, htouches⟩, rfl⟩ := hchecks
    have htalks := Prog.replay_talks hreplay
    have htouched : Touched said := by
      refine ⟨t, ht, fun hu => ?_⟩
      unfold touches at htouches
      split at htouches
      · exact hu
      · cases htouches
    refine ⟨said, htalks, htouched, ?_⟩
    by_contra hnever
    have hharmless := (PartitionLog.rejection_harmless_iff log _ _ _ said _ htalks trivial).mpr
      ⟨not_vacant_of_foundFirst hfound, hnever⟩
    exact not_touched_iff.mpr hharmless htouched

/-- A rejected append writes: nothing fails, nobody else is there, and yet the topic has been
created. -/
theorem rejected_append_writes : ¬ ∀ (log : PartitionLog) (defaultPartitions : PartitionCount)
    (clock : Option Nat) (batches : List (List Record)) (b b' : Bucket Unit Body)
    (cs : List (Cmd Body)) (e : LogError),
    Runs (Bucket.Executes Faults.none log.crates.size ()) b
      (log.appendBatches defaultPartitions clock batches).run cs (.error e) b' →
    e.Rejects → b'.objects = b.objects := by
  intro hharmless
  obtain ⟨cs, b', hrun, hcreated⟩ := lateAppend_runs
  have hsame := hharmless lateLog _ _ _ nothing b' cs _ hrun trivial
  rw [hsame] at hcreated
  exact hcreated rfl

end Reference

end Walstream.Log
