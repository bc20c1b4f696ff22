import Walstream.Log.FirstRun

/-!
# Appends are serialized

The published manifests form one chain. A link of the chain either adds the new batches of one
request behind the log, or removes a prefix of it.

- `Publication`: one link of the chain.
- `Appends`, `Expires`: the two kinds of links.
- `Acknowledged`: what an acknowledged request has committed, and where.
- `Service.appends_serialize`: the chain of every interleaving.
-/

namespace Walstream.Log

open Interaction PartitionLog Scene Tiling

section Chain

variable {Client : Type} (Y : Service Client)

/-! ## Links of the chain -/

/-- The change of the bucket replaces a manifest that stands for `v` by a root that stands for
`v'`, and `new` are the batches it commits. -/
structure Publication (e : Event Client Body) (v v' : LogState) (new : List (List Record × Int)) :
    Prop where
  path : e.path = Y.log.manifestPath
  change : ∃ root live live', e.body = some (.manifest (.indexed root)) ∧
    Y.log.Coherent e.before (Y.log.manifestIn e.before) live v ∧
    Y.log.Coherent e.after (.indexed root) live' v' ∧
    Advance Y e.client e.after (Y.log.manifestIn e.before) v root v' new

/-- The client of this change appends: `new` are the batches of its request that are not yet
committed, in the order of the request, and they lie end to end behind the log `v`. Each of them
gets a segment. -/
structure Appends (e : Event Client Body) (v v' : LogState) (new : List (List Record × Int)) :
    Prop where
  request : ∃ defaultPartitions received batches fingerprints d segments,
    Y.op e.client = .append defaultPartitions (some received) batches ∧
    Y.log.admitBatches batches = .ok fingerprints ∧
    judge v.producers (batches.zip fingerprints) (.start v.next) = .ok d ∧
    new = d.additions ∧ (new.map Prod.fst).Sublist batches ∧
    List.Forall₂ (Y.log.Holds e.after received) new segments ∧
    v'.segments = v.segments ++ segments
  nonempty : new ≠ []
  tiles : AdditionTiles new v.next v'.next
  start : v'.start = v.start

/-- The client of this change runs maintenance: it removes a prefix of the segments. -/
structure Expires (e : Event Client Body) (v v' : LogState) : Prop where
  request : ∃ options now, Y.op e.client = .maintain options (some now) ∧ options.apply = true
  suffix : ∃ k, v' = v.retain k

variable {Y} {e : Event Client Body} {v v' : LogState} {new : List (List Record × Int)}

/-- One batch is recorded with its answer. -/
theorem judgeBatch_record {ss : List ProducerState} {batch : List Record × String} {d d' : Decision}
    (h : judgeBatch ss batch d = .ok d') : ∃ states result, d' = d.record batch.1 states result := by
  unfold judgeBatch at h
  split at h
  · cases h
  split at h
  · simp only [bind_eq_ok, pure, Except.pure, Except.ok.injEq] at h
    obtain ⟨out, -, rfl⟩ := h
    exact ⟨_, _, rfl⟩
  · simp only [bind_eq_ok, pure, Except.pure, Except.ok.injEq] at h
    obtain ⟨result, -, rfl⟩ := h
    exact ⟨_, _, rfl⟩

/-- Every batch gets an answer. -/
theorem judge_length {ss : List ProducerState} {batches : List (List Record × String)}
    {d d' : Decision} (h : judge ss batches d = .ok d') :
    d'.results.length = d.results.length + batches.length := by
  induction batches generalizing d with
  | nil =>
    cases h
    rfl
  | cons batch batches ih =>
    simp only [judge, bind_eq_ok] at h
    obtain ⟨d₁, hone, hrest⟩ := h
    obtain ⟨states, result, rfl⟩ := judgeBatch_record hone
    have hlength : (d.record batch.1 states result).results.length = d.results.length + 1 := by
      unfold Decision.record
      split <;> simp
    rw [ih hrest, hlength, List.length_cons]
    omega

/-- The batches that are judged new keep the order of the request. -/
theorem judge_sublist {ss : List ProducerState} {batches : List (List Record × String)}
    {d d' : Decision} (h : judge ss batches d = .ok d') :
    ∃ new, d'.additions.map Prod.fst = d.additions.map Prod.fst ++ new ∧
      new.Sublist (batches.map Prod.fst) := by
  induction batches generalizing d with
  | nil =>
    cases h
    exact ⟨[], by simp, List.nil_sublist _⟩
  | cons batch batches ih =>
    simp only [judge, bind_eq_ok] at h
    obtain ⟨d₁, hone, hrest⟩ := h
    obtain ⟨new, hnew, hsub⟩ := ih hrest
    obtain ⟨states, result, rfl⟩ := judgeBatch_record hone
    unfold Decision.record at hnew
    split at hnew
    · exact ⟨batch.1 :: new, by simpa using hnew, by simpa using hsub⟩
    · exact ⟨new, hnew, hsub.trans (List.sublist_cons_self ..)⟩

/-- What a link of the chain does. -/
theorem Publication.cases (h : Publication Y e v v' new) :
    Appends Y e v v' new ∨ new = [] ∧ Expires Y e v v' := by
  obtain ⟨root, live, live', -, hbefore, hafter, hadvance⟩ := h.change
  cases hadvance with
  | @append defaultPartitions received batches fingerprints d segments hop hadmitted hjudge hnew
      hholds hrenewed =>
    obtain ⟨-, -, -, hlength, hbatches⟩ := admitBatches_eq_ok hadmitted
    have hsound := judge_sound hbatches hbefore.valid_states
      (hbefore.start_nonneg.trans hbefore.tiles.le) hbefore.fits_next hjudge
    obtain ⟨added, hadded, hsub⟩ := judge_sublist hjudge
    have hzip : (batches.zip fingerprints).map Prod.fst = batches :=
      List.map_fst_zip hlength.ge
    rw [hzip] at hsub
    have heq : d.additions.map Prod.fst = added := by simpa [Decision.start] using hadded
    exact .inl ⟨⟨defaultPartitions, received, batches, fingerprints, d, segments, hop, hadmitted,
      hjudge, rfl, heq ▸ hsub, hholds, rfl⟩, hnew, hsound.tiles, rfl⟩
  | @retain options now k hop happly _ _ =>
    exact .inr ⟨rfl, ⟨options, now, hop, happly⟩, k, rfl⟩

/-! ## The chain -/

variable {g : Genesis Y.log} {es es' : List (Event Client Body)}
  {commits commits' : List (List Record × Int)}

/-- The last change of a chronicle is a publication or touches another object. -/
theorem Chronicle.concat (h : Chronicle Y g (es ++ [e]) v' commits') :
    e.path ≠ Y.log.manifestPath ∧ Chronicle Y g es v' commits' ∨
      ∃ v new commits, commits' = commits ++ new ∧ Chronicle Y g es v commits ∧
        Publication Y e v v' new := by
  generalize hall : es ++ [e] = all at h
  cases h with
  | start => simp at hall
  | other h hpath =>
    obtain ⟨rfl, hlast⟩ := List.append_inj' hall rfl
    cases hlast
    exact .inl ⟨hpath, h⟩
  | publish h hpath hbody hbefore hafter hadvance =>
    obtain ⟨rfl, hlast⟩ := List.append_inj' hall rfl
    cases hlast
    exact .inr ⟨_, _, _, rfl, h, hpath, _, _, _, hbody, hbefore, hafter, hadvance⟩

/-- The chain determines the log and the batches committed. -/
theorem Chronicle.unique (h : Chronicle Y g es v commits) (h' : Chronicle Y g es v' commits') :
    v = v' ∧ commits = commits' := by
  induction h generalizing v' commits' with
  | start =>
    generalize hes : ([] : List (Event Client Body)) = es at h'
    cases h' with
    | start => exact ⟨rfl, rfl⟩
    | other => simp at hes
    | publish => simp at hes
  | other _ hpath ih =>
    rcases h'.concat with ⟨-, h'⟩ | ⟨_, _, _, _, _, hpublished⟩
    · exact ih h'
    · exact absurd hpublished.path hpath
  | publish _ hpath hbody hbefore hafter hadvance ih =>
    rcases h'.concat with ⟨hother, -⟩ | ⟨v₁, new', commits₁, rfl, h', -, root', live₁, live₁', hbody',
      -, hafter', hadvance'⟩
    · exact absurd hpath hother
    obtain ⟨rfl, rfl⟩ := ih h'
    obtain rfl : _ = root' := by simpa using hbody.symm.trans hbody'
    refine ⟨(hafter.unique hafter').2, ?_⟩
    -- the same request was judged by the same log
    cases hadvance with
    | append hop hadmitted hjudge _ _ _ =>
      cases hadvance' with
      | append hop' hadmitted' hjudge' _ _ _ =>
        rw [hop] at hop'
        cases hop'
        rw [hadmitted] at hadmitted'
        cases hadmitted'
        rw [hjudge] at hjudge'
        cases hjudge'
        rfl
      | retain hop' =>
        rw [hop] at hop'
        cases hop'
    | retain hop =>
      cases hadvance' with
      | append hop' =>
        rw [hop] at hop'
        cases hop'
      | retain => rfl

/-- The log at each moment of the chain is one that a manifest stands for. -/
theorem Chronicle.coherent (h : Chronicle Y g es v commits) :
    ∃ content m live, Y.log.Coherent content m live v := by
  induction h with
  | start => exact ⟨_, _, _, g.coherent⟩
  | other _ _ ih => exact ih
  | publish _ _ _ _ hafter _ _ => exact ⟨_, _, _, hafter⟩

/-- The decision on a request by the log of a moment. -/
theorem Chronicle.judged (h : Chronicle Y g es v commits) {batches : List (List Record)}
    {fingerprints : List String} {d : Decision}
    (hadmitted : Y.log.admitBatches batches = .ok fingerprints)
    (hjudge : judge v.producers (batches.zip fingerprints) (.start v.next) = .ok d) :
    d.Sound v.producers v.next := by
  obtain ⟨_, _, _, hcoherent⟩ := h.coherent
  obtain ⟨-, -, -, -, hbatches⟩ := admitBatches_eq_ok hadmitted
  exact judge_sound hbatches hcoherent.valid_states
    (hcoherent.start_nonneg.trans hcoherent.tiles.le) hcoherent.fits_next hjudge

/-- What later links of the chain keep of the log `v`. -/
structure Outlives (Y : Service Client) (es : List (Event Client Body)) (v v' : LogState) : Prop where
  start : v.start ≤ v'.start
  next : v.next ≤ v'.next
  /-- A segment is still there, or was removed with everything before it. -/
  segments : ∀ s ∈ v.segments, s ∈ v'.segments ∨ s.endOffset ≤ v'.start ∧
    ∃ e ∈ es, e.path = Y.log.manifestPath ∧ ∃ v₁ v₂, Expires Y e v₁ v₂

theorem Outlives.refl (v : LogState) : Outlives Y es v v := ⟨le_rfl, le_rfl, fun _ hs => .inl hs⟩

theorem Outlives.mono (h : Outlives Y es v v') (hes : ∀ e ∈ es, e ∈ es') : Outlives Y es' v v' := by
  refine ⟨h.start, h.next, fun s hs => (h.segments s hs).imp_right ?_⟩
  rintro ⟨hend, e, he, hexpires⟩
  exact ⟨hend, e, hes e he, hexpires⟩

/-- One more link. -/
theorem Outlives.step {v₁ : LogState} (h : Outlives Y es v v₁) (hlink : Publication Y e v₁ v' new) :
    Outlives Y (es ++ [e]) v v' := by
  have htiles : SegmentTiles v₁.segments v₁.start v₁.next := by
    obtain ⟨_, _, _, -, hbefore, -, -⟩ := hlink.change
    exact hbefore.tiles
  have hearlier := (h.mono fun e' (he' : e' ∈ es) => List.mem_append_left [e] he').segments
  -- an append adds segments at the end, and maintenance removes some at the start
  rcases hlink.cases with happends | ⟨-, hexpires⟩
  · obtain ⟨_, _, _, _, _, segments, -, -, -, -, -, -, hsegments⟩ := happends.request
    refine ⟨h.start.trans happends.start.ge, h.next.trans happends.tiles.le, fun s hs => ?_⟩
    rw [hsegments, happends.start]
    exact (hearlier s hs).imp_left (List.mem_append_left _)
  · obtain ⟨k, rfl⟩ := hexpires.suffix
    have hstart : v₁.start ≤ (v₁.retain k).start := htiles.start_le k
    refine ⟨h.start.trans hstart, h.next, fun s hs => ?_⟩
    -- what was removed by this link lies before its cut
    rcases hearlier s hs with hmem | ⟨hend, hremoved⟩
    · -- the segment is behind the cut or before it
      have hsplit := List.take_append_drop k v₁.segments
      rw [← hsplit] at hmem htiles
      obtain ⟨b, htake, hdrop⟩ := tiles_append.mp htiles
      rcases List.mem_append.mp hmem with hmem | hmem
      · refine .inr ⟨?_, e, by simp, hlink.path, v₁, _, hexpires⟩
        have hcut : b = (v₁.retain k).start := by
          rw [hsplit] at htiles
          exact hdrop.start_unique (htiles.drop k)
        exact hcut ▸ (htake.mem hmem).2.2
      · exact .inl hmem
    · exact .inr ⟨hend.trans hstart, hremoved⟩

/-- A chronicle goes on from each of its moments. -/
theorem Chronicle.split (h : Chronicle Y g (es ++ es') v' commits') :
    ∃ v commits, Chronicle Y g es v commits ∧ Outlives Y es' v v' := by
  induction es' using List.reverseRecOn generalizing v' commits' with
  | nil =>
    rw [List.append_nil] at h
    exact ⟨v', commits', h, .refl v'⟩
  | append_singleton es' e ih =>
    rw [← List.append_assoc] at h
    rcases h.concat with ⟨-, h⟩ | ⟨v₁, new, commits₁, -, h, hlink⟩
    · obtain ⟨v, commits, h, houtlives⟩ := ih h
      exact ⟨v, commits, h, houtlives.mono fun e' he' => List.mem_append_left [e] he'⟩
    · obtain ⟨v, commits, h, houtlives⟩ := ih h
      exact ⟨v, commits, h, houtlives.step hlink⟩

theorem Chronicle.outlives (h : Chronicle Y g es v commits)
    (h' : Chronicle Y g (es ++ es') v' commits') : Outlives Y es' v v' := by
  obtain ⟨v₁, commits₁, h₁, houtlives⟩ := h'.split
  obtain ⟨rfl, -⟩ := h.unique h₁
  exact houtlives

/-! ## Requests -/

open Classical in
theorem tally_two {log : PartitionLog} {w : Scene Client} {e' : Event Client Body}
    (hhistory : w.bucket.history = es ++ e :: es') (hpath : e.path = log.manifestPath)
    (he' : e' ∈ es') (hpath' : e'.path = log.manifestPath) (hclient : e'.client = e.client) :
    2 ≤ w.tally log e.client := by
  have hsecond : 0 < es'.countP fun e' => decide (e'.client = e.client ∧ e'.path = log.manifestPath) :=
    List.countP_pos_iff.mpr ⟨e', he', by simp [hclient, hpath']⟩
  unfold tally
  rw [hhistory, List.countP_append, List.countP_cons_of_pos (by simp [hpath])]
  omega

/-- An acknowledged request. It was judged by the log as it was at one moment of the call; its new
batches, if any, were added by the next link of the chain, which is the client's own. They have the
offsets from `lo` to `hi`. -/
structure Acknowledged (Y : Service Client) (g : Genesis Y.log) (cl : Client)
    (s b : Bucket Client Body) (result : AppendResult) (lo hi : Int) : Prop where
  answer : ∃ es es' v commits defaultPartitions clock batches fingerprints d,
    b.history = es ++ es' ∧ s.history.length ≤ es.length ∧ Chronicle Y g es v commits ∧
    Y.op cl = .append defaultPartitions clock batches ∧
    Y.log.admitBatches batches = .ok fingerprints ∧
    judge v.producers (batches.zip fingerprints) (.start v.next) = .ok d ∧
    result = d.result ∧ lo = v.next ∧ hi = d.nextOffset ∧
    (d.additions = [] ∧ lo = hi ∨ ∃ e rest v', es' = e :: rest ∧ e.client = cl ∧
      Chronicle Y g (es ++ [e]) v' (commits ++ d.additions) ∧ Appends Y e v v' d.additions ∧
      v'.next = hi)

/-- The link of the chain in which an append takes effect. -/
theorem Chronicle.appends {cl : Client} {defaultPartitions : PartitionCount} {clock : Option Nat}
    {batches : List (List Record)} {fingerprints : List String} {d : Decision}
    (h : Chronicle Y g es v commits) (h' : Chronicle Y g (es ++ e :: es') v' commits')
    (hclient : e.client = cl) (hpath : e.path = Y.log.manifestPath)
    (hop : Y.op cl = .append defaultPartitions clock batches)
    (hadmitted : Y.log.admitBatches batches = .ok fingerprints)
    (hjudge : judge v.producers (batches.zip fingerprints) (.start v.next) = .ok d) :
    ∃ v₁, Chronicle Y g (es ++ [e]) v₁ (commits ++ d.additions) ∧ Appends Y e v v₁ d.additions ∧
      v₁.next = d.nextOffset := by
  subst hclient
  rw [List.append_cons] at h'
  -- the change is a publication, which is either an append or a maintenance
  obtain ⟨v₁, commits₁, hlast, -⟩ := h'.split
  refine ⟨v₁, ?_⟩
  rcases hlast.concat with ⟨hother, -⟩ | ⟨v₀, new, commits₀, rfl, h₀, hlink⟩
  · exact absurd hpath hother
  obtain ⟨rfl, rfl⟩ := h.unique h₀
  -- the request is the one of the client, and is judged by the same log
  rcases hlink.cases with happends | ⟨-, hexpires⟩
  · obtain ⟨_, _, _, _, d', _, hop', hadmitted', hjudge', rfl, -⟩ := happends.request
    rw [hop] at hop'
    cases hop'
    rw [hadmitted] at hadmitted'
    cases hadmitted'
    rw [hjudge] at hjudge'
    cases hjudge'
    exact ⟨hlast, happends, happends.tiles.end_unique (h.judged hadmitted hjudge).tiles⟩
  -- the client does not maintain
  · obtain ⟨_, _, hop', -⟩ := hexpires.request
    rw [hop] at hop'
    cases hop'

/-- The request that was judged first has its offsets before those of the other. -/
private theorem precedes {cl cl' : Client} {more rest rest' : List (Event Client Body)} {hi hi' : Int}
    (h : Chronicle Y g es v commits) (h' : Chronicle Y g (es ++ more) v' commits')
    (heffect : v.next = hi ∨ ∃ e rest₁ v₁ commits₁, rest = e :: rest₁ ∧ e.client = cl ∧
      Chronicle Y g (es ++ [e]) v₁ commits₁ ∧ v₁.next = hi)
    (heffect' : v'.next = hi' ∨ ∃ e rest₁, rest' = e :: rest₁ ∧ e.client = cl')
    (hrest : rest = more ++ rest') (hne : cl ≠ cl') : hi ≤ v'.next ∨ hi' ≤ v.next := by
  rcases heffect with rfl | ⟨e, rest₁, v₁, commits₁, rfl, hclient, h₁, rfl⟩
  · exact .inl (h.outlives h').next
  cases more with
  | nil =>
    -- both were judged by the same log, and at most one of them has added something to it
    rw [List.append_nil] at h'
    obtain ⟨rfl, -⟩ := h.unique h'
    rcases heffect' with rfl | ⟨e', rest₂, rfl, hclient'⟩
    · exact .inr le_rfl
    · cases hrest
      exact absurd (hclient.symm.trans hclient') hne
  | cons e' more =>
    cases hrest
    rw [List.append_cons] at h'
    exact .inl (h₁.outlives h').next

/-- Of two acknowledged requests of different clients, one has its offsets before the other. -/
theorem Acknowledged.disjoint {cl cl' : Client} {s s' b : Bucket Client Body}
    {result result' : AppendResult} {lo hi lo' hi' : Int} (hne : cl ≠ cl')
    (h : Acknowledged Y g cl s b result lo hi) (h' : Acknowledged Y g cl' s' b result' lo' hi') :
    hi ≤ lo' ∨ hi' ≤ lo := by
  obtain ⟨es, rest, v, commits, _, _, _, _, d, hhistory, -, hchronicle, -, -, -, -, rfl, -, heffect⟩ :=
    h.answer
  obtain ⟨es', rest', v', commits', _, _, _, _, d', hhistory', -, hchronicle', -, -, -, -, rfl, -,
    heffect'⟩ := h'.answer
  -- the last offset of a request is where the log ended, then or with its publication
  have hadds : v.next = hi ∨ ∃ e rest₁ v₁ commits₁, rest = e :: rest₁ ∧ e.client = cl ∧
      Chronicle Y g (es ++ [e]) v₁ commits₁ ∧ v₁.next = hi := by
    rcases heffect with ⟨-, hnone⟩ | ⟨e, rest₁, v₁, rfl, hclient, hlink, -, hnext⟩
    · exact .inl hnone
    · exact .inr ⟨e, rest₁, v₁, _, rfl, hclient, hlink, hnext⟩
  have hadds' : v'.next = hi' ∨ ∃ e rest₁ v₁ commits₁, rest' = e :: rest₁ ∧ e.client = cl' ∧
      Chronicle Y g (es' ++ [e]) v₁ commits₁ ∧ v₁.next = hi' := by
    rcases heffect' with ⟨-, hnone⟩ | ⟨e, rest₁, v₁, rfl, hclient, hlink, -, hnext⟩
    · exact .inl hnone
    · exact .inr ⟨e, rest₁, v₁, _, rfl, hclient, hlink, hnext⟩
  -- one request was judged no later than the other
  rcases List.prefix_or_prefix_of_prefix ⟨rest, hhistory.symm⟩ ⟨rest', hhistory'.symm⟩ with
    ⟨more, rfl⟩ | ⟨more, rfl⟩
  · have hrest : rest = more ++ rest' := by
      rw [hhistory, List.append_assoc] at hhistory'
      exact List.append_cancel_left hhistory'
    refine precedes hchronicle hchronicle' hadds (hadds'.imp_right ?_) hrest hne
    rintro ⟨e, rest₁, _, _, hrest', hclient, -⟩
    exact ⟨e, rest₁, hrest', hclient⟩
  · have hrest : rest' = more ++ rest := by
      rw [hhistory', List.append_assoc] at hhistory
      exact List.append_cancel_left hhistory
    refine (precedes hchronicle' hchronicle hadds' (hadds.imp_right ?_) hrest hne.symm).symm
    rintro ⟨e, rest₁, _, _, hrest', hclient, -⟩
    exact ⟨e, rest₁, hrest', hclient⟩

end Chain

/-! ## All interleavings -/

variable {Client : Type} [DecidableEq Client]

/-- The bucket of a configuration that the clients can reach: its history is a chronicle, and its
manifest stands for the log that this leads to. -/
theorem Service.reachable_chronicle {Y : Service Client} {g : Genesis Y.log}
    {cfg : Config Client (Cmd Body) Resp (Bucket Client Body) Outcome}
    (h : Y.system.Reachable g.bucket cfg) :
    ∃ v commits live, Chronicle Y g cfg.shared.history v commits ∧
      Y.log.Coherent cfg.shared.objects (Y.log.manifestIn cfg.shared.objects) live v ∧
      Y.log.InOrder cfg.shared.objects := by
  obtain ⟨w, hshared, -⟩ := Y.reachable_sound h
  rw [← hshared]
  exact ⟨_, _, _, w.sound.chronicle, w.sound.coherent_bucket, w.sound.order⟩

/-- The chain of a configuration. -/
structure Serialized (Y : Service Client) (g : Genesis Y.log)
    (cfg : Config Client (Cmd Body) Resp (Bucket Client Body) Outcome) : Prop where
  /-- The chain leads to the current manifest, whose segments cover its offsets, each once. -/
  chain : ∃ v commits live, Chronicle Y g cfg.shared.history v commits ∧
    Y.log.Coherent cfg.shared.objects (Y.log.manifestIn cfg.shared.objects) live v ∧
    ∀ o, (Y.log.manifestIn cfg.shared.objects).startOffset ≤ o →
      o < (Y.log.manifestIn cfg.shared.objects).nextOffset →
      ∃! s, s ∈ v.segments ∧ s.baseOffset ≤ o ∧ o < s.endOffset
  /-- Every write of the manifest is a link of the chain. -/
  links : ∀ es e es', cfg.shared.history = es ++ e :: es' → e.path = Y.log.manifestPath →
    ∃ v₁ v₂ v commits₁ new commits, Chronicle Y g es v₁ commits₁ ∧
      Chronicle Y g (es ++ [e]) v₂ (commits₁ ++ new) ∧ Chronicle Y g cfg.shared.history v commits ∧
      Publication Y e v₁ v₂ new ∧ (Appends Y e v₁ v₂ new ∨ new = [] ∧ Expires Y e v₁ v₂) ∧
      Outlives Y [e] v₁ v₂ ∧ Outlives Y es' v₂ v
  /-- A request takes effect at most once. -/
  once : ∀ es e es', cfg.shared.history = es ++ e :: es' → e.path = Y.log.manifestPath →
    (∃ defaultPartitions clock batches, Y.op e.client = .append defaultPartitions clock batches) →
    ∀ e' ∈ es', e'.path = Y.log.manifestPath → e'.client ≠ e.client
  /-- Every acknowledged request is in the chain. -/
  acknowledged : ∀ cl s result, cfg.tasks cl = some ⟨s, .ret (.appended (.ok result))⟩ →
    ∃ lo hi, Acknowledged Y g cl s cfg.shared result lo hi
  /-- Different acknowledged requests have different offsets. -/
  disjoint : ∀ cl cl' s s' result result' lo hi lo' hi', cl ≠ cl' →
    Acknowledged Y g cl s cfg.shared result lo hi →
    Acknowledged Y g cl' s' cfg.shared result' lo' hi' → hi ≤ lo' ∨ hi' ≤ lo

/-- **Appends are serialized**: as long as a refused condition means that nothing was written, the
published manifests of every interleaving form one chain. -/
theorem Service.appends_serialize (Y : Service Client) (g : Genesis Y.log)
    (htruthful : ∀ cl, ¬ (Y.faults cl).misreport)
    {cfg : Config Client (Cmd Body) Resp (Bucket Client Body) Outcome}
    (h : Y.system.Reachable g.bucket cfg) : Serialized Y g cfg := by
  obtain ⟨w, hshared, hpromises⟩ := Y.reachable_sound h
  have hchronicle : Chronicle Y g cfg.shared.history w.scene.state w.scene.commits :=
    hshared ▸ w.sound.chronicle
  refine ⟨?_, fun es e es' hhistory hpath => ?_, fun es e es' hhistory hpath hop => ?_,
    fun cl s result htask => ?_, fun _ _ _ _ _ _ _ _ _ _ hne h h' => h.disjoint hne h'⟩
  -- the published manifest and the one list of its segments
  · have hcoherent := w.sound.coherent_bucket
    rw [Scene.manifest, show w.scene.bucket = cfg.shared from hshared] at hcoherent
    refine ⟨_, _, _, hchronicle, hcoherent, fun o hlo hhi => ?_⟩
    exact hcoherent.tiles.existsUnique (by rwa [hcoherent.start_eq]) (by rwa [hcoherent.next_eq])
  -- each publication stands for a link of the chain
  · have hsplit := hchronicle
    rw [hhistory, List.append_cons] at hsplit
    obtain ⟨v₂, commits₂, hlast, houtlives⟩ := hsplit.split
    rcases hlast.concat with ⟨hother, -⟩ | ⟨v₁, new, commits₁, rfl, hfirst, hlink⟩
    · exact absurd hpath hother
    have hself : Outlives Y [] v₁ v₁ := .refl v₁
    exact ⟨v₁, v₂, _, commits₁, new, _, hfirst, hlast, hchronicle, hlink, hlink.cases,
      hself.step hlink, houtlives⟩
  · -- two writes of the manifest would be one too many
    rintro e' he' hpath' hclient
    have htally := w.sound.single e.client ⟨htruthful _, hop⟩
    rw [← hshared] at hhistory
    exact absurd (tally_two hhistory hpath he' hpath' hclient) (by omega)
  -- an answer was judged by one of the logs of the chain
  · have hpromise := hpromises cl s _ htask
    cases hop : Y.op cl with
    | append defaultPartitions clock batches =>
      simp only [Promise, hop] at hpromise
      obtain ⟨fingerprints, hadmitted, hanswered, -⟩ := hpromise
      obtain ⟨es, es', v, commits, d, hhistory, hlength, hjudged, -, hjudge, rfl, heffect⟩ :=
        hanswered.answer
      rw [hshared] at hhistory
      rw [hhistory] at hchronicle
      refine ⟨v.next, d.nextOffset, es, es', v, commits, defaultPartitions, clock, batches,
        fingerprints, d, hhistory, hlength, hjudged, hop, hadmitted, hjudge, rfl, rfl, rfl, ?_⟩
      -- nothing was new, and everything had its offsets already
      by_cases hnone : d.additions = []
      · have htiles := (hjudged.judged hadmitted hjudge).tiles
        rw [hnone] at htiles
        exact .inl ⟨hnone, htiles⟩
      -- the publication of the request is its link
      · obtain ⟨e, rest, rfl, hclient, hpath⟩ := heffect.resolve_left hnone
        obtain ⟨v₁, hlink, happends, hnext⟩ :=
          hjudged.appends hchronicle hclient hpath hop hadmitted hjudge
        exact .inr ⟨e, rest, v₁, rfl, hclient, hlink, happends, hnext⟩
    | fetch => simp only [Promise, hop] at hpromise
    | offsets => simp only [Promise, hop] at hpromise
    | maintain => simp only [Promise, hop] at hpromise

/-- The chain of the first run. -/
theorem Reference.appends_serialize_first : ∃ cfg, Reference.service.system.Reachable
      Reference.genesis.bucket cfg ∧
    (∃ s, cfg.tasks 0 = some ⟨s, .ret (.appended (.ok ⟨0, 0⟩))⟩) ∧
    (∃ s, cfg.tasks 1 = some ⟨s, .ret (.appended (.ok ⟨0, 0⟩))⟩) ∧
    Serialized Reference.service Reference.genesis cfg := by
  obtain ⟨cfg, hreach, h₀, h₁, -⟩ := Reference.service_runs
  exact ⟨cfg, hreach, h₀, h₁, Service.appends_serialize Reference.service Reference.genesis
    (fun _ hf => hf) hreach⟩

end Walstream.Log
