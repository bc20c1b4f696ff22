import Walstream.Log.MetadataSafety

/-!
# What a publication keeps

A reader of the manifest that is published finds what it would have found before. An append adds
behind, whatever the format of the manifest it replaces; maintenance removes the oldest segments,
and nothing else.

- `Upgraded`: what every publication does to the format.
- `Extended`: what an append keeps.
- `Trimmed`: what maintenance keeps.
- `Service.publications_preserve`: every publication of every interleaving.
-/

namespace Walstream.Log

open Interaction PartitionLog Scene Tiling

namespace PartitionLog

/-! ## Readers at rest -/

/-- What a fetch returns in a store that stands still. -/
def fetchAt (log : PartitionLog) (objects : String → Option Body) (offset : Int) (maximumBytes : Nat)
    (allow : Bool) : Except LogError BoundedFetch :=
  log.evaluate objects (log.fetchSnapshot (log.manifestIn objects) offset maximumBytes allow)

/-- The state of a producer in a store that stands still. -/
def producerAt (log : PartitionLog) (objects : String → Option Body) (id : Int) :
    Except LogError (Option ProducerState) :=
  log.evaluate objects (log.producerState (log.manifestIn objects).producers id
    (log.manifestIn objects).nextOffset)

variable {self : PartitionLog} {content content' : String → Option Body} {m : LogManifest}
  {live : List String} {v : LogState}

theorem fetchAt_eq (htopic : validateTopic self.topic = .ok ()) (kafka : Kafka self.crates)
    (h : self.Coherent content (self.manifestIn content) live v) (offset : Int) (maximumBytes : Nat)
    (allow : Bool) :
    self.fetchAt content offset maximumBytes allow = fetchOf content v offset maximumBytes allow :=
  (fetchSnapshot_evaluate htopic h offset maximumBytes allow).resolve_right fun hno => hno.1 kafka

theorem producerAt_eq (h : self.Coherent content (self.manifestIn content) live v) (id : Int) :
    self.producerAt content id = .ok (v.producers.find? (·.id = id)) := by
  obtain ⟨ps, hdirectory, -⟩ := h.directory
  unfold producerAt
  rw [← h.next_eq]
  exact producerState_evaluate hdirectory

/-! ## A longer log -/

/-- From the wanted offset on, a selection takes segments without a gap. -/
theorem pushAll_takes {sel sel' : Selection} {xs : List Segment} {more : Bool}
    (hvalid : ∀ s ∈ xs, self.ValidSegment s) (hend : ∀ s ∈ xs, sel.offset < s.endOffset)
    (h : sel.pushAll xs = .ok (sel', more)) :
    ∃ taken, taken <+: xs ∧ sel'.segments = sel.segments ++ taken := by
  -- over the segments, with what is selected so far
  induction xs generalizing sel with
  | nil =>
    cases h
    exact ⟨[], List.nil_prefix, (List.append_nil _).symm⟩
  | cons x xs ih =>
    simp only [Selection.pushAll, bind_eq_ok] at h
    obtain ⟨⟨sel₁, more₁⟩, hpush, hrest⟩ := h
    have hoffset := push_offset hpush
    -- the segment is taken, or ends the selection
    have hcase : sel₁.segments = sel.segments ++ [x] ∨ sel₁ = sel ∧ more₁ = false := by
      simp only [Selection.push, (hvalid x (by simp)).lastOffset, bind, Except.bind] at hpush
      have := hend x (by simp)
      rw [if_neg (by omega)] at hpush
      split at hpush
      · split at hpush <;> cases hpush
        · exact .inl rfl
        · exact .inr ⟨rfl, rfl⟩
      · cases hpush
        exact .inl rfl
    rcases hcase with htaken | ⟨rfl, rfl⟩
    -- the selection goes on behind it, or ends with it
    · split at hrest
      · obtain ⟨taken, hprefix, hsegments⟩ := ih (fun s hs => hvalid s (List.mem_cons_of_mem _ hs))
          (fun s hs => hoffset ▸ hend s (List.mem_cons_of_mem _ hs)) hrest
        refine ⟨x :: taken, (List.cons_prefix_cons).mpr ⟨rfl, hprefix⟩, ?_⟩
        rw [hsegments, htaken, List.append_assoc, List.singleton_append]
      · cases hrest
        exact ⟨[x], by simp, htaken⟩
    · cases hrest
      exact ⟨[], List.nil_prefix, (List.append_nil _).symm⟩

/-- **A longer log is read as before**: a fetch at an offset that was there returns the same bytes,
followed at most by segments that are new. -/
theorem fetchOf_extend (h : self.Coherent content m live v) {v' : LogState} {segments : List Segment}
    (hsegments : v'.segments = v.segments ++ segments) (hstart : v'.start = v.start)
    (hnext : v.next ≤ v'.next) (hvalid : ∀ s ∈ segments, self.ValidSegment s)
    (hbehind : ∀ s ∈ segments, v.next ≤ s.baseOffset)
    (hsame : ∀ s ∈ v.segments, content' s.object = content s.object) {offset : Int}
    (hlo : v.start ≤ offset) (hhi : offset < v.next) (maximumBytes : Nat) (allow : Bool) :
    ∃ f f' taken, fetchOf content v offset maximumBytes allow = .ok f ∧
      fetchOf content' v' offset maximumBytes allow = .ok f' ∧ taken <+: segments ∧
      f'.records = f.records ++ (taken.map (recordBytes content')).flatten := by
  -- the old segments are selected as before, with the same bytes
  obtain ⟨⟨sel, more⟩, hold⟩ := pushAll_total (Selection.new offset maximumBytes allow)
    h.valid_segments
  have hmap : sel.segments.map (recordBytes content') = sel.segments.map (recordBytes content) := by
    refine List.map_congr_left fun s hs => ?_
    have hmem := (pushAll_segments hold s hs).resolve_left (by simp [Selection.new])
    simp only [recordBytes, hsame s hmem]
  -- the new ones are looked at only when the budget has not ended
  have hall : ∃ sel' more' taken, (Selection.new offset maximumBytes allow).pushAll v'.segments =
      .ok (sel', more') ∧ taken <+: segments ∧ sel'.segments = sel.segments ++ taken := by
    rw [hsegments, pushAll_append, hold]
    simp only [bind, Except.bind]
    split
    · obtain ⟨⟨sel', more'⟩, hnew⟩ := pushAll_total sel hvalid
      have hoffset : sel.offset = offset := pushAll_offset hold
      obtain ⟨taken, hprefix, heq⟩ := pushAll_takes hvalid (fun s hs => by
        have := hbehind s hs
        have := (hvalid s hs).count_pos
        rw [hoffset, Segment.endOffset]
        omega) hnew
      exact ⟨sel', more', taken, hnew, hprefix, heq⟩
    · exact ⟨sel, false, [], rfl, List.nil_prefix, (List.append_nil _).symm⟩
  obtain ⟨sel', more', taken, hnew, hprefix, heq⟩ := hall
  -- both fetches are within the range of their log
  refine ⟨⟨(sel.segments.map (recordBytes content)).flatten, v.next, sel.oversizedFirstBatch⟩,
    ⟨(sel'.segments.map (recordBytes content')).flatten, v'.next, sel'.oversizedFirstBatch⟩, taken,
    ?_, ?_, hprefix, ?_⟩
  · unfold fetchOf
    rw [if_neg (by omega), if_neg (by omega), hold]
    rfl
  · unfold fetchOf
    rw [if_neg (by omega), if_neg (by omega), hnew]
    rfl
  · simp only [heq, List.map_append, List.flatten_append, hmap]

end PartitionLog

/-! ## Publications -/

section Links

variable {Client : Type} {Y : Service Client} {g : Genesis Y.log} {e : Event Client Body}
  {es es' : List (Event Client Body)} {v v' : LogState} {commits new : List (List Record × Int)}

/-- The time by which a call goes. -/
def Op.time : Op → Option Nat
  | .append _ clock _ => clock
  | .maintain _ clock => clock
  | _ => none

/-- The published root has the current format, and the adoption time of the manifest it replaces, if
that has one, else the time of the call. -/
structure Upgraded (Y : Service Client) (e : Event Client Body) (root : Root) : Prop where
  body : e.body = some (.manifest (.indexed root))
  schema : root.schema = indexSchema
  valid : Y.log.validateRoot root = .ok ()
  adopted : ∃ now, (Y.op e.client).time = some now ∧
    root.adoptedAtMs = some (adoptionTime (Y.log.manifestIn e.before) now)

/-- The log goes on behind its old end, and a fetch at any old offset returns the old bytes, followed
by the bytes of the first of the new segments, as many as are selected. -/
structure Extended (Y : Service Client) (e : Event Client Body) (v v' : LogState) : Prop where
  start : v'.start = v.start
  next : v.next ≤ v'.next
  segments : v.segments <+: v'.segments
  fetch : Kafka Y.log.crates → ∀ offset maximumBytes allow, v.start ≤ offset → offset < v.next →
    ∃ f f' taken, Y.log.fetchAt e.before offset maximumBytes allow = .ok f ∧
      Y.log.fetchAt e.after offset maximumBytes allow = .ok f' ∧
      taken <+: v'.segments.drop v.segments.length ∧
      f'.records = f.records ++ (taken.map (recordBytes e.after)).flatten

/-- A prefix of the segments is gone, as far as the limits demand and no farther. Fetches at the
offsets that are left and lookups of producers find what they found before. -/
structure Trimmed (Y : Service Client) (e : Event Client Body) (v v' : LogState) : Prop where
  suffix : ∃ options now k, Y.op e.client = .maintain options (some now) ∧ options.apply = true ∧
    Retains options (adoptionTime (Y.log.manifestIn e.before) now) now v.segments k ∧
    v'.segments = v.segments.drop k ∧ ∀ limit, options.maxBytes = some limit →
      segmentBytes v'.segments ≤ limit
  start : v.start ≤ v'.start
  next : v'.next = v.next
  fetch : Kafka Y.log.crates → ∀ offset maximumBytes allow, v'.start ≤ offset →
    Y.log.fetchAt e.after offset maximumBytes allow = Y.log.fetchAt e.before offset maximumBytes allow
  below : Kafka Y.log.crates → ∀ offset maximumBytes allow, offset < v'.start →
    Y.log.fetchAt e.after offset maximumBytes allow = .error (.offsetOutOfRange offset v.next)
  producers : ∀ id, Y.log.producerAt e.after id = Y.log.producerAt e.before id

theorem manifestIn_after {log : PartitionLog} {m : LogManifest} (hpath : e.path = log.manifestPath)
    (hbody : e.body = some (.manifest m)) : log.manifestIn e.after = m := by
  rw [manifestIn, Event.after, ← hpath, Function.update_self, hbody]
  rfl

/-- A publication leaves the record objects alone. -/
theorem after_segment (g : Genesis Y.log) {live : List String} {m : LogManifest}
    (hpath : e.path = Y.log.manifestPath) (h : Y.log.Coherent e.before m live v) {s : Segment}
    (hs : s ∈ v.segments) : e.after s.object = e.before s.object := by
  have hfiled := (h.filed g.topic (h.object_mem hs)).1
  exact Function.update_of_ne (hpath ▸ ne_manifestPath g hfiled) ..

/-- Every publication upgrades the format. -/
theorem Publication.upgraded (h : Publication Y e v v' new) : ∃ root, Upgraded Y e root := by
  obtain ⟨root, live, live', hbody, hbefore, hafter, hadvance⟩ := h.change
  have hvalid : Y.log.validateRoot root = .ok () := validateRoot_eq_ok.mpr hafter.valid
  cases hadvance with
  | append hop _ _ _ _ hrenewed =>
    exact ⟨root, hbody, hrenewed.schema, hvalid, _, by rw [hop]; rfl, hrenewed.adopted⟩
  | retain hop _ _ hrenewed =>
    exact ⟨root, hbody, hrenewed.schema, hvalid, _, by rw [hop]; rfl, hrenewed.adopted⟩

/-- An append keeps what was there. -/
theorem Appends.extended (g : Genesis Y.log) (happends : Appends Y e v v' new)
    (h : Publication Y e v v' new) : Extended Y e v v' := by
  obtain ⟨root, live, live', hbody, hbefore, hafter, -⟩ := h.change
  obtain ⟨_, _, _, _, _, segments, -, -, -, -, -, -, hsegments⟩ := happends.request
  rw [← manifestIn_after h.path hbody] at hafter
  refine ⟨happends.start, happends.tiles.le, hsegments ▸ List.prefix_append .., ?_⟩
  intro kafka offset maximumBytes allow hlo hhi
  have htiles := hafter.tiles
  rw [hsegments, happends.start] at htiles
  obtain ⟨middle, hold, hnew⟩ := tiles_append.mp htiles
  have hmiddle : v.next = middle := hbefore.tiles.end_unique hold
  obtain ⟨f, f', taken, hf, hf', htaken, hrecords⟩ := fetchOf_extend hbefore hsegments happends.start
    happends.tiles.le (fun s hs => hafter.valid_segments s (hsegments ▸ List.mem_append_right _ hs))
    (fun s hs => hmiddle ▸ (hnew.mem hs).1) (fun s hs => after_segment g h.path hbefore hs) hlo hhi
    maximumBytes allow
  rw [fetchAt_eq g.topic kafka hbefore, fetchAt_eq g.topic kafka hafter]
  exact ⟨f, f', taken, hf, hf', by rwa [hsegments, List.drop_left], hrecords⟩

/-- Maintenance keeps what it does not remove. -/
theorem Expires.trimmed (g : Genesis Y.log) (hexpires : Expires Y e v v')
    (h : Publication Y e v v' new) : Trimmed Y e v v' := by
  obtain ⟨root, live, live', hbody, hbefore, hafter, hadvance⟩ := h.change
  obtain ⟨options₀, now₀, hop₀, -⟩ := hexpires.request
  -- the client maintains, so that the change is no append
  cases hadvance with
  | append hop =>
    rw [hop₀] at hop
    cases hop
  | @retain options now k hop happly hretains _ =>
    rw [← manifestIn_after h.path hbody] at hafter
    have hsame : ∀ s ∈ v.segments, e.after s.object = e.before s.object := fun s hs =>
      after_segment g h.path hbefore hs
    refine ⟨⟨options, now, k, hop, happly, hretains, rfl, fun limit hlimit => ?_⟩,
      hbefore.tiles.start_le k, rfl, fun kafka offset maximumBytes allow hoffset => ?_,
      fun kafka offset maximumBytes allow hoffset => ?_, fun id => ?_⟩
    · -- the suffix is empty or within the limit
      change segmentBytes (v.segments.drop k) ≤ limit
      rcases hretains.le.lt_or_eq with hlt | heq
      · obtain ⟨_, -, -, hsize⟩ := hretains.keeps hlt
        simpa [sizeExpired, hlimit] using hsize
      · simp [heq, segmentBytes]
    -- the kept segments have the bytes that they had
    · rw [fetchAt_eq g.topic kafka hbefore, fetchAt_eq g.topic kafka hafter,
        ← fetchOf_retain hbefore hoffset]
      exact fetchOf_congr (fun s hs => hsame s (List.mem_of_mem_drop hs)) ..
    -- what was removed is out of range
    · rw [fetchAt_eq g.topic kafka hafter, fetchOf, if_pos (.inl hoffset)]
      rfl
    -- the directory is the same
    · rw [producerAt_eq hbefore, producerAt_eq hafter]
      rfl

/-- Later publications keep the adoption time. -/
theorem Chronicle.adoption {objects : String → Option Body} {t : Nat}
    (h : Chronicle Y g (es ++ es') v commits) (hleads : Leads g.objects (es ++ es') objects)
    {middle : String → Option Body} (hmiddle : Leads g.objects es middle)
    (hadopted : ∃ root, Y.log.manifestIn middle = .indexed root ∧ root.adoptedAtMs = some t) :
    ∃ root, Y.log.manifestIn objects = .indexed root ∧ root.adoptedAtMs = some t := by
  induction es' using List.reverseRecOn generalizing v commits objects with
  | nil =>
    rw [List.append_nil] at hleads
    rwa [leads_unique hleads hmiddle]
  | append_singleton es' e ih =>
    rw [← List.append_assoc] at h hleads
    obtain ⟨hbefore, rfl⟩ := leads_concat hleads
    rcases h.concat with ⟨hother, h⟩ | ⟨_, _, _, -, h, hlink⟩
    · have hkept : Y.log.manifestIn e.after = Y.log.manifestIn e.before := by
        rw [manifestIn, manifestIn, Event.after, Function.update_of_ne (Ne.symm hother)]
      rw [hkept]
      exact ih h hbefore
    · obtain ⟨root, hroot, ht⟩ := ih h hbefore
      obtain ⟨root', hupgraded⟩ := hlink.upgraded
      obtain ⟨now, -, hadoption⟩ := hupgraded.adopted
      refine ⟨root', manifestIn_after hlink.path hupgraded.body, ?_⟩
      rw [hadoption, hroot]
      simp [adoptionTime, ht]

end Links

/-! ## All interleavings -/

variable {Client : Type} [DecidableEq Client]

/-- **Publications preserve**: in every interleaving every publication upgrades the format, for good,
and either extends the log or trims it, so that readers find what they found before. -/
theorem Service.publications_preserve (Y : Service Client) (g : Genesis Y.log)
    {cfg : Config Client (Cmd Body) Resp (Bucket Client Body) Outcome}
    (h : Y.system.Reachable g.bucket cfg) {es es' : List (Event Client Body)} {e : Event Client Body}
    (hhistory : cfg.shared.history = es ++ e :: es') (hpath : e.path = Y.log.manifestPath) :
    ∃ root v v' new commits, Chronicle Y g es v commits ∧ Publication Y e v v' new ∧
      Upgraded Y e root ∧
      (∃ root', Y.log.manifestIn cfg.shared.objects = .indexed root' ∧
        root'.adoptedAtMs = root.adoptedAtMs) ∧
      (Appends Y e v v' new ∧ Extended Y e v v' ∨ Expires Y e v v' ∧ Trimmed Y e v v') := by
  -- the manifest before this publication, and the one after it
  obtain ⟨cfg₁, hreach, -, heq, hafter⟩ := Y.after h hhistory
  obtain ⟨_, _, _, hchronicle, -⟩ := Service.reachable_chronicle h
  rw [hhistory, List.append_cons] at hchronicle
  have hleads := Y.leads g h
  rw [hhistory, List.append_cons] at hleads
  have hmiddle := Y.leads g hreach
  rw [heq, hafter] at hmiddle
  -- the publication is a link of the chain
  obtain ⟨v', commits', hlast, -⟩ := hchronicle.split
  rcases hlast.concat with ⟨hother, -⟩ | ⟨v, new, commits, -, hfirst, hlink⟩
  · exact absurd hpath hother
  obtain ⟨root, hupgraded⟩ := hlink.upgraded
  obtain ⟨now, -, hadoption⟩ := hupgraded.adopted
  obtain ⟨root', hroot', hsame⟩ := hchronicle.adoption hleads hmiddle
    ⟨root, manifestIn_after hpath hupgraded.body, hadoption⟩
  refine ⟨root, v, v', new, commits, hfirst, hlink, hupgraded, ⟨root', hroot', hsame.trans hadoption.symm⟩,
    ?_⟩
  -- which extends the log, or trims it
  rcases hlink.cases with happends | ⟨-, hexpires⟩
  · exact .inl ⟨happends, happends.extended g hlink⟩
  · exact .inr ⟨hexpires, hexpires.trimmed g hlink⟩

/-- The last two publications of the second run: client 2 appends, and client 3 removes segments. -/
theorem Reference.publications_preserve_first : ∃ cfg,
    Reference.trimming.system.Reachable Reference.genesis.bucket cfg ∧
    (∃ es e es' root v v' new commits, cfg.shared.history = es ++ e :: es' ∧ e.client = 2 ∧
      Chronicle Reference.trimming Reference.genesis es v commits ∧
      Publication Reference.trimming e v v' new ∧ Upgraded Reference.trimming e root ∧
      Appends Reference.trimming e v v' new ∧ Extended Reference.trimming e v v') ∧
    ∃ es e es' root v v' new commits, cfg.shared.history = es ++ e :: es' ∧ e.client = 3 ∧
      Chronicle Reference.trimming Reference.genesis es v commits ∧
      Publication Reference.trimming e v v' new ∧ Upgraded Reference.trimming e root ∧
      Expires Reference.trimming e v v' ∧ Trimmed Reference.trimming e v v' ∧
      ∀ offset maximumBytes allow, v'.start ≤ offset →
        Reference.log.fetchAt e.after offset maximumBytes allow =
          Reference.log.fetchAt e.before offset maximumBytes allow := by
  -- the publications of the two clients in one run
  obtain ⟨cfg, hreach, -, -, ⟨e, he, hclient, hpath⟩, ⟨e', he', hclient', hpath'⟩, -⟩ :=
    Reference.trimming_runs
  obtain ⟨es, rest, hhistory⟩ := List.append_of_mem he
  obtain ⟨es', rest', hhistory'⟩ := List.append_of_mem he'
  refine ⟨cfg, hreach, ?_, ?_⟩
  · obtain ⟨root, v, v', new, commits, hchronicle, hlink, hupgraded, -, hextends | ⟨hexpires, -⟩⟩ :=
      Service.publications_preserve Reference.trimming Reference.genesis hreach hhistory hpath
    · exact ⟨es, e, rest, root, v, v', new, commits, hhistory, hclient, hchronicle, hlink, hupgraded,
        hextends⟩
    · obtain ⟨_, _, hop, -⟩ := hexpires.request
      rw [hclient] at hop
      cases hop
  · obtain ⟨root, v, v', new, commits, hchronicle, hlink, hupgraded, -, ⟨hextends, -⟩ | hexpires⟩ :=
      Service.publications_preserve Reference.trimming Reference.genesis hreach hhistory' hpath'
    · obtain ⟨_, _, _, _, _, _, hop, -⟩ := hextends.request
      rw [hclient'] at hop
      cases hop
    · exact ⟨es', e', rest', root, v, v', new, commits, hhistory', hclient', hchronicle, hlink,
        hupgraded, hexpires.1, hexpires.2, hexpires.2.fetch Reference.kafka⟩

end Walstream.Log
