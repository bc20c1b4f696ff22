import Walstream.Log.Revisions

/-!
# What clients see

Every moment of a run has its log (`Stands`). A fetch returns what the log of one moment of the
call says, reads that follow one another see the log grow, and an acknowledged batch stays as it
was written until retention removes it.

- `Service.fetches_coherent`: fetches.
- `Service.reads_follow`: the order of calls in real time.
- `Service.batches_durable`: acknowledged batches.
- `Service.maintenance_retains`: maintenance among other clients.
-/

namespace Walstream.Log

open Interaction PartitionLog Scene Tiling

section Moments

variable {Client : Type} {Y : Service Client} {g : Genesis Y.log}

/-! ## Moments -/

/-- At moment `i` the bucket had these objects, and their manifest stood for the log `v`, to which
the chain had led by then. -/
structure Stands (Y : Service Client) (g : Genesis Y.log) (b : Bucket Client Body) (i : Nat)
    (objects : String → Option Body) (v : LogState) : Prop where
  moment : b.moments[i]? = some objects
  chronicle : ∃ commits, Chronicle Y g (b.history.take i) v commits
  coherent : ∃ live, Y.log.Coherent objects (Y.log.manifestIn objects) live v

/-- A later moment has a later log. -/
theorem chronicle_le {es : List (Event Client Body)} {i j : Nat} {v v' : LogState}
    {commits commits' : List (List Record × Int)} (h : Chronicle Y g (es.take i) v commits)
    (h' : Chronicle Y g (es.take j) v' commits') (hij : i ≤ j) :
    v.start ≤ v'.start ∧ v.next ≤ v'.next := by
  have hsplit : es.take j = es.take i ++ (es.take j).drop i := by
    conv_lhs => rw [← List.take_append_drop i (es.take j)]
    rw [List.take_take, Nat.min_eq_left hij]
  rw [hsplit] at h'
  exact ⟨(h.outlives h').start, (h.outlives h').next⟩

variable [DecidableEq Client]
  {cfg cfg' : Config Client (Cmd Body) Resp (Bucket Client Body) Outcome}

/-- Every moment of a run has its log. -/
theorem Service.stands (h : Y.system.Reachable g.bucket cfg) {i : Nat}
    {objects : String → Option Body} (hi : cfg.shared.moments[i]? = some objects) :
    ∃ v, Stands Y g cfg.shared i objects v := by
  obtain ⟨cfg', hreach, -, hobjects, hhistory⟩ := System.reachable_moment
    (fun _ _ _ _ _ hexec => Bucket.Executes.next hexec) (fun _ _ hs => Bucket.Delivered.next hs)
    (rfl : g.bucket.history = []) h hi
  obtain ⟨w, hshared, -⟩ := Y.reachable_sound hreach
  have hcoherent := w.sound.coherent_bucket
  have hchronicle := w.sound.chronicle
  rw [Scene.manifest, show w.scene.bucket = cfg'.shared from hshared] at hcoherent
  rw [show w.scene.bucket = cfg'.shared from hshared] at hchronicle
  rw [hobjects] at hcoherent
  rw [hhistory] at hchronicle
  exact ⟨w.scene.state, hi, ⟨_, hchronicle⟩, _, hcoherent⟩

/-- The history only grows. -/
theorem Service.history_prefix (h : Y.system.Reachable g.bucket cfg)
    (hsteps : Relation.ReflTransGen Y.system.Step cfg cfg') :
    cfg.shared.history <+: cfg'.shared.history := by
  obtain ⟨w, w', hle, hshared, hshared'⟩ := Y.steps_sound h hsteps
  have hle : Le Y.log w.scene w'.scene := hle
  rw [← hshared, ← hshared']
  exact hle.history

end Moments

/-! ## Fetches -/

namespace PartitionLog

variable {self : PartitionLog} {content : String → Option Body} {m : LogManifest}
  {objects : List String} {v : LogState}

/-- A fetch from one snapshot that stands still is a fetch from its log. -/
theorem fetchSnapshot_evaluate (htopic : validateTopic self.topic = .ok ())
    (h : self.Coherent content m objects v) (offset : Int) (maximumBytes : Nat) (allow : Bool) :
    self.evaluate content (self.fetchSnapshot m offset maximumBytes allow) =
        fetchOf content v offset maximumBytes allow ∨
      ¬ Kafka self.crates ∧ ∃ object detail, self.evaluate content
        (self.fetchSnapshot m offset maximumBytes allow) = .error (.corruptSegment object detail) := by
  have hdraft := fetchSnapshot_drafts (n := ⟨content, ∅⟩) htopic h offset maximumBytes allow
  obtain ⟨fetched, heval, hfetched, -⟩ | ⟨x, heval, ⟨hfetched, -⟩ | ⟨hkafka, object, detail, rfl⟩⟩ :=
    Drafts.eval hdraft (fetchSnapshot_reads m offset maximumBytes allow) fun _ _ h => h
  · exact .inl (heval.trans hfetched.symm)
  · exact .inl (heval.trans hfetched.symm)
  · exact .inr ⟨hkafka, object, detail, heval⟩

/-- What a successful fetch says about the end of the log. -/
theorem fetchOf_highWatermark {offset : Int} {maximumBytes : Nat} {allow : Bool} {f : BoundedFetch}
    (h : fetchOf content v offset maximumBytes allow = .ok f) : f.highWatermark = v.next := by
  unfold fetchOf at h
  split at h
  · cases h
  split at h
  · cases h
    rfl
  · simp only [bind_eq_ok, pure, Except.pure, Except.ok.injEq] at h
    obtain ⟨_, -, rfl⟩ := h
    rfl

theorem pushAll_prefix {sel sel' : Selection} {xs : List Segment} {more : Bool}
    (h : sel.pushAll xs = .ok (sel', more)) : sel.segments <+: sel'.segments := by
  induction xs generalizing sel with
  | nil =>
    cases h
    exact List.prefix_rfl
  | cons x xs ih =>
    simp only [Selection.pushAll, bind_eq_ok] at h
    obtain ⟨⟨sel₁, more₁⟩, hpush, hrest⟩ := h
    have hfirst : sel.segments <+: sel₁.segments := by
      rcases push_segments hpush with heq | heq
      · rw [heq]
      · rw [heq]
        exact List.prefix_append ..
    split at hrest
    · exact hfirst.trans (ih hrest)
    · cases hrest
      exact hfirst

/-- The segment that contains the wanted offset is taken, whatever its size, when the first batch may
be oversized. -/
private theorem push_wanted {offset : Int} {s : Segment} (hs : self.ValidSegment s)
    (hend : offset < s.endOffset) (maximumBytes : Nat) :
    ∃ sel more, (Selection.new offset maximumBytes true).push s = .ok (sel, more) ∧
      sel.segments = [s] := by
  simp only [Selection.push, hs.lastOffset, bind, Except.bind]
  rw [if_neg (by simp only [Selection.new]; omega)]
  split
  · rw [if_pos (by simp [Selection.new])]
    exact ⟨_, _, rfl, rfl⟩
  · exact ⟨_, _, rfl, rfl⟩

/-- A fetch at an offset of the log starts with the segment that contains it. -/
theorem fetchOf_first (h : self.Coherent content m objects v) {s : Segment} (hs : s ∈ v.segments)
    {offset : Int} (hlo : s.baseOffset ≤ offset) (hhi : offset < s.endOffset) (maximumBytes : Nat) :
    ∃ f, fetchOf content v offset maximumBytes true = .ok f ∧ recordBytes content s <+: f.records := by
  have htiles := h.tiles
  obtain ⟨before, behind, hsplit⟩ := List.append_of_mem hs
  have hin := htiles.mem hs
  -- the segments before it end at or before the offset
  have hskip : ∀ t ∈ before, t.endOffset ≤ offset := by
    intro t ht
    rw [hsplit] at htiles
    obtain ⟨middle, hbefore, hbehind⟩ := tiles_append.mp htiles
    have := (hbefore.mem ht).2.2
    have := hbehind.head
    omega
  obtain ⟨sel, more, hpush, hsegments⟩ :=
    push_wanted (h.valid_segments s hs) hhi maximumBytes
  obtain ⟨⟨sel', more'⟩, hall⟩ := pushAll_total (Selection.new offset maximumBytes true)
    h.valid_segments
  have hprefix : [s] <+: sel'.segments := by
    have hrun := hall
    rw [hsplit, pushAll_append, pushAll_skip (fun t ht => h.valid_segments t (by simp [hsplit, ht]))
      hskip] at hrun
    simp only [bind, Except.bind, if_true, Selection.pushAll, hpush] at hrun
    split at hrun
    · exact hsegments ▸ pushAll_prefix hrun
    · cases hrun
      rw [hsegments]
  refine ⟨⟨(sel'.segments.map (recordBytes content)).flatten, v.next, sel'.oversizedFirstBatch⟩, ?_, ?_⟩
  · unfold fetchOf
    rw [if_neg (by omega), if_neg (by omega), hall]
    rfl
  · obtain ⟨rest, hrest⟩ := hprefix
    rw [← hrest]
    simp

end PartitionLog

variable {Client : Type} [DecidableEq Client]
  {cfg cfg' : Config Client (Cmd Body) Resp (Bucket Client Body) Outcome}

/-- **Fetches are coherent**: what a fetch returns is what the log of one moment of the call says.
When the partition is valid, the topic had its metadata before, the store did not fail and the codec
decodes what it encodes, a fetch fails only with the answer of such a moment, that the offset is out
of range, or because the manifest was replaced in every attempt. -/
theorem Service.fetches_coherent (Y : Service Client) (g : Genesis Y.log)
    (h : Y.system.Reachable g.bucket cfg) {cl : Client} {s : Bucket Client Body} {offset : Int}
    {maximumBytes : Nat} {allow : Bool} (hop : Y.op cl = .fetch offset maximumBytes allow)
    {result : Except LogError BoundedFetch}
    (htask : cfg.tasks cl = some ⟨s, .ret (.fetched result)⟩) :
    (∀ f, result = .ok f → ∃ i objects v, s.history.length ≤ i ∧ Stands Y g cfg.shared i objects v ∧
      fetchOf objects v offset maximumBytes allow = .ok f) ∧
    ∀ x, result = .error x → ¬ x.Malformed ∧ ∀ m, Established Y.log s.objects m →
      validatePartition Y.log.partition m.partitionCount = .ok () → 0 ≤ offset →
      Kafka Y.log.crates → ¬ (Y.faults cl).transport →
      x = .contentionExhausted maxCasAttempts ∨ ∃ i objects v, s.history.length ≤ i ∧
        Stands Y g cfg.shared i objects v ∧ x = .offsetOutOfRange offset v.next ∧
        fetchOf objects v offset maximumBytes allow = .error x := by
  obtain ⟨w, hshared, hpromises⟩ := Y.reachable_sound h
  have hpromise := hpromises cl s _ htask
  refine ⟨?_, ?_⟩
  · rintro f rfl
    simp only [Promise, hop, Fetched] at hpromise
    obtain ⟨objects, ⟨i, hi, hmoment⟩, heval⟩ := hpromise
    rw [hshared] at hmoment
    obtain ⟨v, hv⟩ := Y.stands h hmoment
    obtain ⟨live, hcoherent⟩ := hv.coherent
    rcases fetchSnapshot_evaluate g.topic hcoherent offset maximumBytes allow with
      heq | ⟨-, object, detail, hcorrupt⟩
    · exact ⟨i, objects, v, hi, hv, heq.symm.trans heval⟩
    · rw [heval] at hcorrupt
      cases hcorrupt
  · rintro x rfl
    simp only [Promise, hop] at hpromise
    obtain ⟨hmalformed, hfails⟩ := hpromise
    refine ⟨hmalformed, fun m hm hvalid hoffset kafka htransport => ?_⟩
    refine ((hfails m hm hvalid hoffset).2 kafka htransport).imp_right ?_
    rintro ⟨⟨objects, ⟨i, hi, hmoment⟩, heval⟩, next, rfl⟩
    rw [hshared] at hmoment
    obtain ⟨v, hv⟩ := Y.stands h hmoment
    obtain ⟨live, hcoherent⟩ := hv.coherent
    rcases fetchSnapshot_evaluate g.topic hcoherent offset maximumBytes allow with
      heq | ⟨hkafka, -⟩
    · have hfetched := heq.symm.trans heval
      refine ⟨i, objects, v, hi, hv, ?_, hfetched⟩
      -- the error names the end of the same log
      unfold fetchOf at hfetched
      split at hfetched
      · exact (Except.error.inj hfetched).symm
      split at hfetched
      · cases hfetched
      · obtain ⟨out, hout⟩ := pushAll_total (Selection.new offset maximumBytes allow)
          hcoherent.valid_segments
        rw [hout] at hfetched
        cases hfetched
    · exact absurd kafka hkafka

/-- The fetch of the first run. -/
theorem Reference.fetches_coherent_first : ∃ cfg s f i objects v,
    Reference.service.system.Reachable Reference.genesis.bucket cfg ∧
      cfg.tasks 3 = some ⟨s, .ret (.fetched (.ok f))⟩ ∧ s.history.length ≤ i ∧
      Stands Reference.service Reference.genesis cfg.shared i objects v ∧
      fetchOf objects v 0 1000 true = .ok f := by
  obtain ⟨cfg, hreach, -, -, -, s, f, htask⟩ := Reference.service_runs
  obtain ⟨i, objects, v, hi, hv, hfetched⟩ :=
    (Service.fetches_coherent Reference.service Reference.genesis hreach rfl htask).1 f rfl
  exact ⟨cfg, s, f, i, objects, v, hreach, htask, hi, hv, hfetched⟩

/-! ## The order of calls -/

/-- The end of the log that an outcome tells of: behind the acknowledged batches, or the end that was
read. -/
def Outcome.extent : Outcome → Option Int
  | .appended (.ok result) => some (result.lastOffset + 1)
  | .fetched (.ok f) => some f.highWatermark
  | .ranged (.ok range) => some range.latest
  | _ => none

/-- The answers to batches lie before the end of the log. -/
theorem judge_results {log : PartitionLog} {ss : List ProducerState} {start : Int} {d : Decision}
    {batches : List (List Record × String)} (hbatches : ∀ batch ∈ batches, log.Admitted batch)
    (hss : ∀ p ∈ ss, ValidState start p) (hstart : 0 ≤ start) (hfits : start ≤ i64Max)
    (h : judge ss batches (.start start) = .ok d) : ∀ r ∈ d.results, r.lastOffset < d.nextOffset := by
  refine (judge_rule (P := fun d => d.Sound ss start ∧ ∀ r ∈ d.results, r.lastOffset < d.nextOffset)
    (fun _ hd => hd.1.past hss) ?_ ⟨Decision.sound_start hfits, by simp [Decision.start]⟩ h).2
  rintro batch hbatch d d' ⟨hsound, hresults⟩ hjudged
  refine ⟨hjudged.sound (hbatches batch hbatch) hsound hss hstart, fun r hr => ?_⟩
  cases hjudged with
  | anonymous | continued =>
    rcases List.mem_append.mp hr with hr | hr
    · exact (hresults r hr).trans_le (d.le_add _ _)
    · obtain rfl := List.mem_singleton.mp hr
      simp only [Decision.add]
      omega
  | @repeated first rest fingerprint b hid hrec =>
    rcases List.mem_append.mp hr with hr | hr
    · exact hresults r hr
    · obtain rfl := List.mem_singleton.mp hr
      -- the repeated batch is remembered, so it was committed before
      have hmem := List.mem_of_find?_eq_some hrec.2.1
      obtain ⟨-, hnew | hvalid⟩ := hsound.stateFor hss first
      · rw [hnew] at hmem
        cases hmem
      · have hend := (hvalid.batches b hmem).end_le
        rw [hrec.2.2.1] at hend
        simp only [Decision.repeat]
        omega

section Order

variable {Y : Service Client} {g : Genesis Y.log} {cl : Client} {s : Bucket Client Body}

omit [DecidableEq Client] in
/-- What an acknowledged append says was in the log by then. -/
private theorem appended_extent {w : World Y g} {defaultPartitions : PartitionCount}
    {clock : Option Nat} {batches : List (List Record)} {result : AppendResult}
    (hop : Y.op cl = .append defaultPartitions clock batches)
    (h : Promise Y g cl s (.appended (.ok result)) w) :
    ∃ i v commits, i ≤ w.bucket.history.length ∧
      Chronicle Y g (w.bucket.history.take i) v commits ∧ result.lastOffset + 1 ≤ v.next := by
  simp only [Promise, hop] at h
  obtain ⟨fingerprints, hadmitted, ⟨es, es', v, commits, d, hhistory, -, hchronicle, -, hjudge, rfl,
    heffect⟩, -⟩ := h
  obtain ⟨-, -, hne, hlength, hbatches⟩ := admitBatches_eq_ok hadmitted
  obtain ⟨_, _, _, hcoherent⟩ := hchronicle.coherent
  have hresults := judge_results hbatches hcoherent.valid_states
    (hcoherent.start_nonneg.trans hcoherent.tiles.le) hcoherent.fits_next hjudge
  -- the last offset of the answer lies before the end of the log
  have hlast : d.result.lastOffset < d.nextOffset := by
    have hcount := judge_length hjudge
    have hsome : d.results ≠ [] := by
      have := List.length_pos_iff.mpr hne
      rw [← List.length_pos_iff, hcount, List.length_zip, hlength]
      omega
    simp only [Decision.result, List.getLast?_eq_some_getLast hsome, Option.map_some,
      Option.getD_some]
    exact hresults _ (List.getLast_mem hsome)
  have hsound := hchronicle.judged hadmitted hjudge
  -- nothing was added, so that the log has not changed
  by_cases hnone : d.additions = []
  · have htiles := hsound.tiles
    rw [hnone] at htiles
    refine ⟨es.length, v, commits, by simp [hhistory], by simpa [hhistory] using hchronicle, ?_⟩
    have heq : v.next = d.nextOffset := htiles
    omega
  -- the publication has added what the answer says
  · obtain ⟨e, rest, rfl, hclient, hpath⟩ := heffect.resolve_left hnone
    have hall := w.sound.chronicle
    rw [show w.scene.bucket.history = es ++ e :: rest from hhistory] at hall
    obtain ⟨v₁, hlink, -, hnext⟩ := hchronicle.appends hall hclient hpath hop hadmitted hjudge
    refine ⟨es.length + 1, v₁, commits ++ d.additions, by simp [hhistory], ?_, hnext ▸ hlast⟩
    have htake : w.bucket.history.take (es.length + 1) = es ++ [e] := by
      rw [hhistory, List.append_cons]
      exact List.take_left' (by simp)
    rwa [htake]

/-- What a read says was in the log at a moment of the call. -/
private theorem read_extent (h : Y.system.Reachable g.bucket cfg) {out : Outcome} {n : Int}
    (htask : cfg.tasks cl = some ⟨s, .ret out⟩) (hn : out.extent = some n)
    (hread : ∀ defaultPartitions clock batches, Y.op cl ≠ .append defaultPartitions clock batches) :
    ∃ i objects v, s.history.length ≤ i ∧ Stands Y g cfg.shared i objects v ∧ n = v.next := by
  -- a fetch or a question for the offsets has an extent of its own
  cases hop : Y.op cl with
  | append defaultPartitions clock batches => exact absurd hop (hread _ _ _)
  | fetch offset maximumBytes allow =>
    obtain ⟨w, -, hpromises⟩ := Y.reachable_sound h
    have hpromise := hpromises cl s _ htask
    rcases out with _ | (x | f) | _ | _ <;> simp only [Promise, hop] at hpromise
    · cases hn
    · cases hn
      -- a fetch tells where the log ended at a moment of the call
      obtain ⟨i, objects, v, hi, hv, hfetched⟩ := (Y.fetches_coherent g h hop htask).1 f rfl
      exact ⟨i, objects, v, hi, hv, fetchOf_highWatermark hfetched⟩
  | offsets =>
    obtain ⟨w, hshared, hpromises⟩ := Y.reachable_sound h
    have hpromise := hpromises cl s _ htask
    rcases out with _ | _ | (x | range) | _ <;> simp only [Promise, hop] at hpromise
    · cases hn
    · cases hn
      -- so does the answer to a question for the offsets
      obtain ⟨objects, ⟨i, hi, hmoment⟩, rfl⟩ := hpromise
      rw [hshared] at hmoment
      obtain ⟨v, hv⟩ := Y.stands h hmoment
      obtain ⟨live, hcoherent⟩ := hv.coherent
      exact ⟨i, objects, v, hi, hv, hcoherent.next_eq.symm⟩
  | maintain options clock =>
    obtain ⟨w, -, hpromises⟩ := Y.reachable_sound h
    have hpromise := hpromises cl s _ htask
    rcases out with _ | _ | _ | (x | report) <;> simp only [Promise, hop] at hpromise
    · cases hn
    · cases hn

/-- What any outcome says was in the log by then. -/
private theorem outcome_extent (h : Y.system.Reachable g.bucket cfg) {out : Outcome} {n : Int}
    (htask : cfg.tasks cl = some ⟨s, .ret out⟩) (hn : out.extent = some n) :
    ∃ i v commits, i ≤ cfg.shared.history.length ∧
      Chronicle Y g (cfg.shared.history.take i) v commits ∧ n ≤ v.next := by
  by_cases hread : ∀ defaultPartitions clock batches,
      Y.op cl ≠ .append defaultPartitions clock batches
  · obtain ⟨i, objects, v, -, hv, rfl⟩ := read_extent h htask hn hread
    obtain ⟨commits, hchronicle⟩ := hv.chronicle
    obtain ⟨hlt, -⟩ := List.getElem?_eq_some_iff.mp hv.moment
    refine ⟨i, v, commits, ?_, hchronicle, le_rfl⟩
    simp only [Bucket.moments, List.length_append, List.length_map, List.length_singleton] at hlt
    omega
  · simp only [not_forall, not_not] at hread
    obtain ⟨defaultPartitions, clock, batches, hop⟩ := hread
    obtain ⟨w, hshared, hpromises⟩ := Y.reachable_sound h
    have hpromise := hpromises cl s _ htask
    rcases out with (x | result) | _ | _ | _
    · cases hn
    · cases hn
      rw [← hshared]
      exact appended_extent hop hpromise
    all_goals simp only [Promise, hop] at hpromise

/-- **Reads follow what is known**: a fetch or a listing of offsets that starts after another call has
returned sees everything that this call has acknowledged or seen. -/
theorem Service.reads_follow (Y : Service Client) (g : Genesis Y.log)
    (h : Y.system.Reachable g.bucket cfg) (hsteps : Relation.ReflTransGen Y.system.Step cfg cfg')
    {cl cl' : Client} {s s' : Bucket Client Body} {out out' : Outcome} {n n' : Int}
    (hfirst : cfg.tasks cl = some ⟨s, .ret out⟩) (hlater : cfg.tasks cl' = none)
    (hsecond : cfg'.tasks cl' = some ⟨s', .ret out'⟩) (hn : out.extent = some n)
    (hn' : out'.extent = some n')
    (hread : ∀ defaultPartitions clock batches, Y.op cl' ≠ .append defaultPartitions clock batches) :
    n ≤ n' := by
  obtain ⟨i, v, commits, hi, hchronicle, hle⟩ := outcome_extent h hfirst hn
  obtain ⟨j, objects, v', hj, hv', rfl⟩ := read_extent (h.trans hsteps) hsecond hn' hread
  obtain ⟨commits', hchronicle'⟩ := hv'.chronicle
  -- the second call starts when the first one has returned
  obtain ⟨cfg₁, hsteps₁, hstarted⟩ := System.started_after hsteps hlater hsecond
  have hstarted : s' = cfg₁.shared := hstarted
  have hlength := (Y.history_prefix h hsteps₁).length_le
  rw [← hstarted] at hlength
  have htake : cfg'.shared.history.take i = cfg.shared.history.take i := by
    obtain ⟨more, hmore⟩ := Y.history_prefix h hsteps
    rw [← hmore, List.take_append_of_le_length hi]
  rw [← htake] at hchronicle
  exact hle.trans (chronicle_le hchronicle hchronicle' (hi.trans (hlength.trans hj))).2

end Order

/-- The fetch of the first run sees the acknowledged record. -/
theorem Reference.reads_follow_first : ∃ cfg s f,
    Reference.service.system.Reachable Reference.genesis.bucket cfg ∧
      (∃ s, cfg.tasks 0 = some ⟨s, .ret (.appended (.ok ⟨0, 0⟩))⟩) ∧
      cfg.tasks 3 = some ⟨s, .ret (.fetched (.ok f))⟩ ∧ 1 ≤ f.highWatermark := by
  obtain ⟨cfg, cfg', hreach, hsteps, ⟨s, h₀⟩, -, hnone, hkept, -, -, ⟨s', f, h₃⟩, -⟩ :=
    Reference.service_sequence
  have hle : (0 : Int) + 1 ≤ f.highWatermark := Service.reads_follow Reference.service
    Reference.genesis hreach hsteps h₀ hnone h₃ rfl rfl fun _ _ _ h => by cases h
  exact ⟨cfg', s', f, hreach.trans hsteps, ⟨s, hkept.trans h₀⟩, h₃, hle⟩

/-! ## Batches -/

/-- The batch is in the log as it was sent: its segment holds the encoding of its records at the
offsets they were given, and a fetch at any of these offsets starts with it. -/
structure Readable (log : PartitionLog) (objects : String → Option Body) (v : LogState)
    (addition : List Record × Int) (s : Segment) : Prop where
  mem : s ∈ v.segments
  base : s.baseOffset = addition.2
  stop : s.endOffset = addition.2 + addition.1.length
  bytes : ∃ bytes, log.crates.encode (assignAt addition.1 addition.2) = .ok bytes ∧
    objects s.object = some (.raw bytes) ∧
    ∀ offset maximumBytes, addition.2 ≤ offset → offset < addition.2 + addition.1.length →
      ∃ f, fetchOf objects v offset maximumBytes true = .ok f ∧ bytes <+: f.records

section Batches

variable {Y : Service Client} {g : Genesis Y.log} {e : Event Client Body}
  {es es' : List (Event Client Body)}

/-- What a segment holds when it is published, it holds as long as it is in the log. -/
private theorem readable_later {log : PartitionLog} {content content' : String → Option Body}
    {m : LogManifest} {live : List String} {v : LogState} {received : Nat}
    {addition : List Record × Int} {s : Segment} (hholds : log.Holds content received addition s)
    (hcoherent : log.Coherent content' m live v) (hmem : s ∈ v.segments)
    (hkept : ∀ body, content s.object = some body → content' s.object = some body) :
    Readable log content' v addition s := by
  obtain ⟨bytes, hof, hstored⟩ := hholds
  have hbody := hkept _ hstored.body
  have hstop : s.endOffset = addition.2 + addition.1.length := by
    rw [Segment.endOffset, hof.base, hof.count]
  refine ⟨hmem, hof.base, hstop, bytes, hof.encoded, hbody, fun offset maximumBytes hlo hhi => ?_⟩
  obtain ⟨f, hf, hprefix⟩ := fetchOf_first hcoherent hmem (hof.base ▸ hlo) (hstop ▸ hhi) maximumBytes
  have hrecords : recordBytes content' s = bytes := by simp [recordBytes, hbody]
  exact ⟨f, hf, hrecords ▸ hprefix⟩

/-- The configuration right after a change, and the objects it left. -/
theorem Service.after (h : Y.system.Reachable g.bucket cfg)
    (hhistory : cfg.shared.history = es ++ e :: es') : ∃ cfg₁, Y.system.Reachable g.bucket cfg₁ ∧
      Relation.ReflTransGen Y.system.Step cfg₁ cfg ∧ cfg₁.shared.history = es ++ [e] ∧
      cfg₁.shared.objects = e.after := by
  have hlt : es.length + 1 < cfg.shared.moments.length := by
    simp [Bucket.moments, hhistory]
  obtain ⟨cfg₁, hreach, hsteps, -, htake⟩ := System.reachable_moment
    (fun _ _ _ _ _ hexec => Bucket.Executes.next hexec) (fun _ _ hs => Bucket.Delivered.next hs)
    (rfl : g.bucket.history = []) h (List.getElem?_eq_getElem hlt)
  have heq : cfg₁.shared.history = es ++ [e] := by
    rw [htake, hhistory, List.append_cons]
    exact List.take_left' (by simp)
  have hleads := Y.leads g hreach
  rw [heq] at hleads
  exact ⟨cfg₁, hreach, hsteps, heq, (leads_concat hleads).2⟩

/-- **Committed batches are durable**: every batch that an append has committed is in the log as it
was sent, and every fetch at its offsets returns it, until maintenance has removed it with everything
before it. -/
theorem Service.batches_durable (Y : Service Client) (g : Genesis Y.log)
    (h : Y.system.Reachable g.bucket cfg) (hhistory : cfg.shared.history = es ++ e :: es')
    (hpath : e.path = Y.log.manifestPath) : ∃ v₁ v₂ v new segments commits,
      Chronicle Y g es v₁ commits ∧ Publication Y e v₁ v₂ new ∧
      Stands Y g cfg.shared cfg.shared.history.length cfg.shared.objects v ∧
      List.Forall₂ (fun addition s => Readable Y.log cfg.shared.objects v addition s ∨
        addition.2 + addition.1.length ≤ v.start ∧
          ∃ e' ∈ es', e'.path = Y.log.manifestPath ∧ ∃ v₁ v₂, Expires Y e' v₁ v₂) new segments := by
  obtain ⟨cfg₁, hreach, hsteps, heq, hafter⟩ := Y.after h hhistory
  obtain ⟨w₁, w, hle, hshared₁, hshared⟩ := Y.steps_sound hreach hsteps
  have hle : Le Y.log w₁.scene w.scene := hle
  have hchronicle₁ := w₁.sound.chronicle
  have hchronicle := w.sound.chronicle
  rw [show w₁.scene.bucket = cfg₁.shared from hshared₁, heq] at hchronicle₁
  rw [show w.scene.bucket = cfg.shared from hshared] at hchronicle
  have hcoherent := w.sound.coherent_bucket
  rw [Scene.manifest, show w.scene.bucket = cfg.shared from hshared] at hcoherent
  have hstands : Stands Y g cfg.shared cfg.shared.history.length cfg.shared.objects w.scene.state :=
    ⟨by simp [Bucket.moments], ⟨_, by rwa [List.take_length]⟩, _, hcoherent⟩
  rw [hhistory, List.append_cons] at hchronicle
  have houtlives := hchronicle₁.outlives hchronicle
  rcases hchronicle₁.concat with ⟨hother, -⟩ | ⟨v₁, new, commits, -, hfirst, hlink⟩
  · exact absurd hpath hother
  rcases hlink.cases with happends | ⟨rfl, -⟩
  · obtain ⟨_, received, _, _, _, segments, -, -, -, -, -, hholds, hsegments⟩ := happends.request
    refine ⟨v₁, _, _, new, segments, commits, hfirst, hlink, hstands, ?_⟩
    have hmem : ∀ s ∈ segments, s ∈ w₁.scene.state.segments := fun s hs =>
      hsegments ▸ List.mem_append_right _ hs
    refine (List.forall₂_iff_get.mpr ⟨hholds.length_eq, fun i hi hi' => ?_⟩)
    have hone := List.forall₂_iff_get.mp hholds |>.2 i hi hi'
    generalize new.get ⟨i, hi⟩ = addition at hone ⊢
    have hs := hmem _ (List.get_mem segments ⟨i, hi'⟩)
    generalize segments.get ⟨i, hi'⟩ = s at hone hs ⊢
    rcases houtlives.segments s hs with hin | ⟨hend, hexpired⟩
    · refine .inl (readable_later hone hcoherent hin fun body hbody => ?_)
      -- what was made stays as long as it is live
      have hlive₁ := w₁.sound.live_present (w₁.sound.coherent.object_mem hs)
      have hlive := w.sound.live_present (w.sound.coherent.object_mem hin)
      rw [show w₁.scene.bucket = cfg₁.shared from hshared₁, hafter, hbody] at hlive₁
      rw [show w.scene.bucket = cfg.shared from hshared] at hlive
      rw [hlive]
      exact hle.made hlive₁.symm
    · obtain ⟨bytes, hof, -⟩ := hone
      refine .inr ⟨?_, hexpired⟩
      rw [Segment.endOffset, hof.base, hof.count] at hend
      exact hend
  · exact ⟨v₁, _, _, [], [], commits, hfirst, hlink, hstands, .nil⟩

end Batches

/-- The batch of the first run. -/
theorem Reference.batches_durable_first : ∃ cfg es e es' v₁ v₂ v new segments commits,
    Reference.service.system.Reachable Reference.genesis.bucket cfg ∧
      cfg.shared.history = es ++ e :: es' ∧ e.client = 0 ∧
      Chronicle Reference.service Reference.genesis es v₁ commits ∧
      Publication Reference.service e v₁ v₂ new ∧
      Stands Reference.service Reference.genesis cfg.shared cfg.shared.history.length
        cfg.shared.objects v ∧
      List.Forall₂ (fun addition s => Readable Reference.log cfg.shared.objects v addition s ∨
        addition.2 + addition.1.length ≤ v.start ∧ ∃ e' ∈ es', e'.path = Reference.log.manifestPath ∧
          ∃ v₁ v₂, Expires Reference.service e' v₁ v₂) new segments := by
  obtain ⟨_, cfg, hreach, hsteps, -, -, -, -, -, -, -, es, e, es', hhistory, hclient, hpath⟩ :=
    Reference.service_sequence
  obtain ⟨v₁, v₂, v, new, segments, commits, hfirst, hlink, hstands, hall⟩ :=
    Service.batches_durable Reference.service Reference.genesis (hreach.trans hsteps) hhistory hpath
  exact ⟨cfg, es, e, es', v₁, v₂, v, new, segments, commits, hreach.trans hsteps, hhistory, hclient,
    hfirst, hlink, hstands, hall⟩

/-! ## Maintenance -/

theorem PartitionLog.Retains.unique {options : MaintenanceOptions} {adoption now k k' : Nat}
    {segments : List Segment} (h : Retains options adoption now segments k)
    (h' : Retains options adoption now segments k') : k = k' := by
  rcases lt_trichotomy k k' with hlt | heq | hlt
  · exact absurd (h.keeps (hlt.trans_le h'.le)) (h'.least k hlt)
  · exact heq
  · exact absurd (h'.keeps (hlt.trans_le h.le)) (h.least k' hlt)

/-- **Maintenance keeps its promise**: a run that applies its limits and succeeds, whatever the other
clients did meanwhile, has replaced one manifest by a root that keeps exactly the suffix to be
retained of the log that this manifest stood for. -/
theorem Service.maintenance_retains (Y : Service Client) (g : Genesis Y.log)
    (h : Y.system.Reachable g.bucket cfg) {cl : Client} {s : Bucket Client Body}
    {options : MaintenanceOptions} {clock : Option Nat} (hop : Y.op cl = .maintain options clock)
    (happly : options.apply = true) {report : MaintenanceReport}
    (htask : cfg.tasks cl = some ⟨s, .ret (.maintained (.ok report))⟩) :
    ∃ now es e es' v k commits, clock = some now ∧ cfg.shared.history = es ++ e :: es' ∧
      s.history.length ≤ es.length ∧ e.client = cl ∧ Chronicle Y g es v commits ∧
      Publication Y e v (v.retain k) [] ∧
      Retains options (adoptionTime (Y.log.manifestIn e.before) now) now v.segments k := by
  -- what the call promises, and the change that it made
  obtain ⟨w, hshared, hpromises⟩ := Y.reachable_sound h
  have hpromise := hpromises cl s _ htask
  simp only [Promise, hop] at hpromise
  obtain ⟨now, rfl, base, v, k, root, live, -, ⟨es, e, es', commits, hhistory, hlength, hclient, hpath,
    -, hbase, hchronicle⟩, hretains, -, -⟩ := hpromise happly
  have hall := w.sound.chronicle
  rw [show w.scene.bucket.history = _ from hhistory, List.append_cons] at hall
  rw [hshared] at hhistory
  refine ⟨now, es, e, es', v, k, commits, rfl, hhistory, hlength, hclient, hchronicle, ?_, ?_⟩
  -- the change is the link of the chain that this client has published
  · obtain ⟨v₂, commits₂, hlast, -⟩ := hall.split
    rcases hlast.concat with ⟨hother, -⟩ | ⟨v₁, new, _, rfl, hfirst, hlink⟩
    · exact absurd hpath hother
    obtain ⟨rfl, -⟩ := hchronicle.unique hfirst
    obtain ⟨root', live₁, live₂, hbody, hbefore, hafter, hadvance⟩ := hlink.change
    cases hadvance with
    -- the client does not append
    | append hop' =>
      rw [hclient, hop] at hop'
      cases hop'
    -- the suffix is the one of the limits
    | retain hop' _ hretains' _ =>
      rw [hclient, hop] at hop'
      cases hop'
      rw [PartitionLog.manifestIn, hbase] at hretains'
      obtain rfl := hretains.unique hretains'
      exact hlink
  · rwa [PartitionLog.manifestIn, hbase]

/-- The manifest that lists three records stands for three segments. -/
theorem Reference.listsThree_segments {objects content : String → Option Body} {live : List String}
    {v : LogState}
    (h : Reference.listsThree objects = true)
    (hcoherent : Reference.log.Coherent content (Reference.log.manifestIn objects) live v) :
    v.segments.map (·.byteLength) = [69, 69, 69] := by
  unfold Reference.listsThree at h
  split at h
  · rename_i root hroot
    rw [Bool.and_eq_true, Option.isNone_iff_eq_none, decide_eq_true_eq] at h
    rw [hroot] at hcoherent
    obtain ⟨os, ps, hindexed, -, -⟩ := hcoherent.pages
    obtain ⟨ss, hforest, hsegments⟩ := hindexed.forest
    rw [h.1] at hforest
    cases hforest
    rw [hsegments, List.nil_append, h.2]
  · cases h

/-- Of three records, the last two fit into the limit. -/
theorem Reference.retains_two {adoption now : Nat} {segments : List Segment}
    (h : segments.map (·.byteLength) = [69, 69, 69]) :
    PartitionLog.Retains ⟨none, some 138, true, 1000⟩ adoption now segments 1 := by
  simp only [List.map_eq_cons_iff, List.map_eq_nil_iff] at h
  obtain ⟨s₀, _, rfl, h₀, s₁, _, rfl, h₁, s₂, _, rfl, h₂, rfl⟩ := h
  refine ⟨by simp, fun _ => ⟨s₁, rfl, rfl, ?_⟩, fun i hi => ?_⟩
  · simp [sizeExpired, segmentBytes, h₁, h₂]
  · obtain rfl : i = 0 := by omega
    rintro ⟨_, -, -, hsize⟩
    simp [sizeExpired, segmentBytes, h₀, h₁, h₂] at hsize

/-- The maintenance of the second run: of three records the last two are retained. -/
theorem Reference.maintenance_retains_first : ∃ cfg es e es' v commits,
    Reference.trimming.system.Reachable Reference.genesis.bucket cfg ∧
      cfg.shared.history = es ++ e :: es' ∧ e.client = 3 ∧
      Chronicle Reference.trimming Reference.genesis es v commits ∧
      v.segments.map (·.byteLength) = [69, 69, 69] ∧
      Publication Reference.trimming e v (v.retain 1) [] ∧
      PartitionLog.Retains ⟨none, some 138, true, 1000⟩ (adoptionTime (Reference.log.manifestIn e.before) 0) 0
        v.segments 1 := by
  obtain ⟨cfg, hreach, ⟨s, report, htask⟩, -, -, -, hlisted⟩ := Reference.trimming_runs
  obtain ⟨now, es, e, es', v, k, commits, hnow, hhistory, -, hclient, hchronicle, hlink, hretains⟩ :=
    Service.maintenance_retains Reference.trimming Reference.genesis hreach rfl rfl htask
  cases hnow
  obtain ⟨_, _, _, _, hbefore, -, -⟩ := hlink.change
  have hlengths := Reference.listsThree_segments
    (hlisted e (by rw [hhistory]; simp) hclient hlink.path) hbefore
  obtain rfl := hretains.unique (Reference.retains_two hlengths)
  exact ⟨cfg, es, e, es', v, commits, hreach, hhistory, hclient, hchronicle, hlengths, hlink, hretains⟩
end Walstream.Log
