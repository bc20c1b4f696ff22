import Walstream.Log.Collecting

/-!
# All interleavings

Any number of clients call the methods of the log on one partition, and their requests
interleave. Every configuration they can reach is a sound world, and every call that has
returned has kept its promise.

- `Promise`: what a call promises.
- `Service.reachable_sound`: the invariant of all interleavings.
-/

namespace Walstream.Log

open Interaction PartitionLog Scene

variable {Client : Type} [DecidableEq Client] {Y : Service Client} {g : Genesis Y.log}

/-- What the outcome of a call promises that the client started when the bucket was `s`. -/
def Promise (Y : Service Client) (g : Genesis Y.log) (cl : Client) (s : Bucket Client Body)
    (out : Outcome) (w : World Y g) : Prop :=
  match Y.op cl, out with
  | .append _ _ batches, .appended (.ok result) => ∃ fingerprints,
      Y.log.admitBatches batches = .ok fingerprints ∧
        Answered Y g cl s w.bucket (batches.zip fingerprints) (fun _ => True) result ∧
          Counted Y.log w.bucket.objects
  | .append _ clock _, .appended (.error x) => clock ≠ none → Blameless Y.log x
  | .fetch offset maximumBytes allow, .fetched (.ok fetched) =>
      Fetched Y s w.bucket offset maximumBytes allow (.ok fetched)
  | .fetch offset maximumBytes allow, .fetched (.error x) => ¬ x.Malformed ∧
      ∀ m, Established Y.log s.objects m → validatePartition Y.log.partition m.partitionCount = .ok () →
        0 ≤ offset → FetchFails Y cl s w.bucket offset maximumBytes allow x
  | .offsets, .ranged (.ok range) => ∃ objects, s.During w.bucket objects ∧
      range = ⟨(Y.log.manifestIn objects).startOffset, (Y.log.manifestIn objects).nextOffset⟩
  | .offsets, .ranged (.error x) => ¬ x.Malformed
  | .maintain options clock, .maintained (.ok _) => options.apply = true → ∃ now, clock = some now ∧
      Maintained w cl s options now (fun _ => True) False
  | .maintain _ clock, .maintained (.error x) => clock ≠ none → Blameless Y.log x
  | _, _ => False

/-! ## Promises are kept -/

section Stable

variable {cl : Client} {s : Bucket Client Body} {w w' : World Y g}

omit [DecidableEq Client] in
theorem Answered.later {b b' : Bucket Client Body} {batches : List (List Record × String)}
    {expected expected' : LogState → Prop} {result : AppendResult}
    (h : Answered Y g cl s b batches expected result) (hb : b.history <+: b'.history)
    (hexpected : ∀ v, expected v → expected' v) :
    Answered Y g cl s b' batches expected' result := by
  obtain ⟨es, es', v, commits, d, hhistory, hlength, hchronicle, hv, hjudge, hresult, hnew⟩ := h.answer
  obtain ⟨more, hmore⟩ := hb
  refine ⟨es, es' ++ more, v, commits, d, ?_, hlength, hchronicle, hexpected v hv, hjudge, hresult,
    hnew.imp_right ?_⟩
  · rw [← hmore, hhistory, List.append_assoc]
  · rintro ⟨e, rest, rfl, hclient, hpath⟩
    exact ⟨e, rest ++ more, rfl, hclient, hpath⟩

omit [DecidableEq Client] in
theorem Fetched.later {b b' : Bucket Client Body} {offset : Int} {maximumBytes : Nat} {allow : Bool}
    {result : Except LogError BoundedFetch} (h : Fetched Y s b offset maximumBytes allow result)
    (hb : b.moments <+: b'.moments) : Fetched Y s b' offset maximumBytes allow result :=
  h.imp fun _ h => h.imp_left fun h => h.later hb

omit [DecidableEq Client] in
theorem FetchFails.later {b b' : Bucket Client Body} {offset : Int} {maximumBytes : Nat} {allow : Bool}
    {x : LogError} (h : FetchFails Y cl s b offset maximumBytes allow x)
    (hb : b.moments <+: b'.moments) : FetchFails Y cl s b' offset maximumBytes allow x :=
  ⟨h.1, fun kafka hfaults => (h.2 kafka hfaults).imp_right fun h => h.imp_left fun h => h.later hb⟩

omit [DecidableEq Client] in
/-- A promise that was kept stays kept. -/
theorem Promise.later {out : Outcome} (h : Promise Y g cl s out w) (hw : w ≤ w') :
    Promise Y g cl s out w' := by
  have hle : Le Y.log w.scene w'.scene := hw
  -- an outcome of another kind promises nothing
  cases hop : Y.op cl with
  | append defaultPartitions clock batches =>
    rcases out with (x | result) | _ | _ | _ <;> simp only [Promise, hop] at h ⊢
    · exact h
    · obtain ⟨fingerprints, hadmitted, hanswered, hcounted⟩ := h
      exact ⟨fingerprints, hadmitted, hanswered.later hle.history fun _ h => h, hcounted.later hw⟩
  | fetch offset maximumBytes allow =>
    rcases out with _ | (x | fetched) | _ | _ <;> simp only [Promise, hop] at h ⊢
    · exact ⟨h.1, fun m hm hvalid hoffset => (h.2 m hm hvalid hoffset).later hle.moments⟩
    · exact h.later hle.moments
  | offsets =>
    rcases out with _ | _ | (x | range) | _ <;> simp only [Promise, hop] at h ⊢
    · exact h
    · obtain ⟨objects, hduring, hrange⟩ := h
      exact ⟨objects, hduring.later hle.moments, hrange⟩
  | maintain options clock =>
    rcases out with _ | _ | _ | (x | report) <;> simp only [Promise, hop] at h ⊢
    · exact h
    · intro happly
      obtain ⟨now, hclock, hmaintained⟩ := h happly
      exact ⟨now, hclock, hmaintained.later hw fun h => h.elim⟩

omit [DecidableEq Client] in
/-- Every call keeps its promise among the others. -/
theorem program_promise (cl : Client) (hcalm : Calm cl w) :
    (Company.others Y g cl).arena.wp ((Y.op cl).program Y.log) (Promise Y g cl w.bucket) w := by
  have hat : (Company.others Y g cl).At w.head w := ⟨hcalm, fun h => h.elim⟩
  -- one case for each kind of call, each with the promise of its own
  cases hop : Y.op cl with
  | append defaultPartitions clock batches =>
    refine Arena.wp_bind (Arena.wp_mono (appendBatches_ends hop hat) fun r w' _ hr => ?_)
    cases r with
    | ok result =>
      obtain ⟨fingerprints, hadmitted, hanswered, hcounted⟩ := hr
      simp only [Arena.wp, Promise, hop, Prog.pure_eq]
      exact ⟨fingerprints, hadmitted, hanswered.later List.prefix_rfl fun _ _ => trivial, hcounted⟩
    | error x => simpa only [Arena.wp, Promise, hop, Prog.pure_eq] using hr
  | fetch offset maximumBytes allow =>
    refine Arena.wp_bind (Arena.wp_mono (fetchBounded_ends offset maximumBytes allow hat)
      fun r w' _ hr => ?_)
    cases r <;> simpa only [Arena.wp, Promise, hop, Prog.pure_eq] using hr
  | offsets =>
    refine Arena.wp_bind (Arena.wp_mono (offsets_ends hat) fun r w' _ hr => ?_)
    cases r <;> simpa only [Arena.wp, Promise, hop, Prog.pure_eq] using hr
  | maintain options clock =>
    refine Arena.wp_bind (Arena.wp_mono (maintain_ends hop hat) fun r w' _ hr => ?_)
    cases r with
    | ok report =>
      simp only [Arena.wp, Promise, hop, Prog.pure_eq]
      intro happly
      obtain ⟨now, hclock, base, v, k, root, live, -, hlanded, hretains, hcoherent, -⟩ := hr happly
      exact ⟨now, hclock, base, v, k, root, live, trivial, hlanded, hretains, hcoherent, False.elim⟩
    | error x => simpa only [Arena.wp, Promise, hop, Prog.pure_eq] using hr

end Stable

/-! ## The system -/

omit [DecidableEq Client] in
/-- The clients fit together: each relies only on what the others guarantee. -/
theorem compatible (Y : Service Client) (g : Genesis Y.log) :
    System.Compatible Y.system (fun w : World Y g => w.bucket)
      (fun cl => (Company.others Y g cl).arena) where
  view_eq := fun _ => rfl
  exec_eq := fun _ => rfl
  guarantee := fun hw hcl => ⟨hw.1, hw.2 _ hcl⟩
  environment := fun {w s} hs => by
    obtain ⟨sc, hbucket, hsound, hle, hunharmed⟩ := w.sound.deliver hs
    exact ⟨⟨sc, hsound⟩, hbucket, hle, fun cl => ⟨hle, hunharmed cl⟩⟩

omit [DecidableEq Client] in
theorem calm_world (Y : Service Client) (g : Genesis Y.log) (cl : Client) : Calm cl (g.world Y) :=
  fun _ => by simp [World.tally, tally, Genesis.world, Genesis.scene, Genesis.bucket, Bucket.initial]

/-- What comes after a configuration in which everybody is verified. -/
theorem Service.steps_verified {cfg cfg' : Config Client (Cmd Body) Resp (Bucket Client Body) Outcome}
    {w : World Y g}
    (h : Y.system.Verified (fun w : World Y g => w.bucket)
      (fun cl => (Company.others Y g cl).arena) Calm (Promise Y g) cfg w)
    (hsteps : Relation.ReflTransGen Y.system.Step cfg cfg') :
    ∃ w', w ≤ w' ∧ Y.system.Verified (fun w : World Y g => w.bucket)
      (fun cl => (Company.others Y g cl).arena) Calm (Promise Y g) cfg' w' :=
  System.steps_world (compatible Y g) (fun cl _ => program_promise cl)
    (fun _ _ _ hw hcalm hsingle => Nat.le_zero.mp (hcalm hsingle ▸ hw.2.tally))
    (fun _ _ _ _ _ hw hpromise => hpromise.later hw.1) h hsteps

/-- **The invariant of all interleavings**: every configuration that the clients can reach is a sound
world, and every call that has returned has kept its promise. -/
theorem Service.reachable_sound {cfg : Config Client (Cmd Body) Resp (Bucket Client Body) Outcome}
    (h : Y.system.Reachable g.bucket cfg) :
    ∃ w : World Y g, w.bucket = cfg.shared ∧ ∀ cl s out, cfg.tasks cl = some ⟨s, .ret out⟩ →
      Promise Y g cl s out w := by
  obtain ⟨w, -, hshared, -, htasks⟩ := Y.steps_verified (System.verified_initial (calm_world Y g)) h
  exact ⟨w, hshared, fun cl s out ht => htasks cl _ ht⟩

/-- Worlds of two configurations, one after the other. -/
theorem Service.steps_sound {cfg cfg' : Config Client (Cmd Body) Resp (Bucket Client Body) Outcome}
    (h : Y.system.Reachable g.bucket cfg) (hsteps : Relation.ReflTransGen Y.system.Step cfg cfg') :
    ∃ w w' : World Y g, w ≤ w' ∧ w.bucket = cfg.shared ∧ w'.bucket = cfg'.shared := by
  obtain ⟨w, -, hw⟩ := Y.steps_verified (System.verified_initial (calm_world Y g)) h
  obtain ⟨w', hle, hw'⟩ := Y.steps_verified hw hsteps
  exact ⟨w, w', hle, hw.shared, hw'.shared⟩

end Walstream.Log
