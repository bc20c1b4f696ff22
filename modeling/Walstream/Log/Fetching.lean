import Walstream.Log.Coherence
import Walstream.Log.IndexSafety

/-!
# The drafts of a fetch

A fetch reads one manifest, walks its index and concatenates the record objects it selects.
`fetchOf` says what it returns in terms of the log that the manifest stands for, without
index and objects; `fetchSnapshot_drafts` connects the two.
-/

namespace Walstream.Log

open Interaction Tiling

namespace PartitionLog

/-! ## What a fetch returns -/

/-- The bytes of a segment's record object. -/
def recordBytes (content : String → Option Body) (s : Segment) : List UInt8 :=
  match content s.object with
  | some (.raw bytes) => bytes
  | _ => []

/-- A fetch from the log `v`: one pass over all its segments. -/
def fetchOf (content : String → Option Body) (v : LogState) (offset : Int) (maximumBytes : Nat)
    (allowOversizedFirstBatch : Bool) : Except LogError BoundedFetch :=
  if offset < v.start ∨ offset > v.next then .error (.offsetOutOfRange offset v.next)
  else if offset = v.next then .ok ⟨[], v.next, false⟩
  else do
    let (selection, _) ←
      (Selection.new offset maximumBytes allowOversizedFirstBatch).pushAll v.segments
    return ⟨(selection.segments.map (recordBytes content)).flatten, v.next,
      selection.oversizedFirstBatch⟩

variable {self : PartitionLog} {n : Notes Body} {F : LogError → Prop} {m : LogManifest}
  {objects : List String} {v : LogState} {content content' : String → Option Body}

theorem StoredSegment.recordBytes {s : Segment} {bytes : List UInt8}
    (h : self.StoredSegment content s bytes) : recordBytes content s = bytes := by
  simp [PartitionLog.recordBytes, h.body]

/-- What is selected from a list of segments are segments of the list. -/
theorem push_segments {sel sel' : Selection} {s : Segment} {more : Bool}
    (h : sel.push s = .ok (sel', more)) :
    sel'.segments = sel.segments ∨ sel'.segments = sel.segments ++ [s] := by
  simp only [Selection.push, bind_eq_ok] at h
  obtain ⟨last, -, h⟩ := h
  split at h
  · cases h; exact .inl rfl
  · split at h
    · split at h <;> cases h
      · exact .inr rfl
      · exact .inl rfl
    · cases h; exact .inr rfl

theorem pushAll_segments {sel sel' : Selection} {xs : List Segment} {more : Bool}
    (h : sel.pushAll xs = .ok (sel', more)) : ∀ s ∈ sel'.segments, s ∈ sel.segments ∨ s ∈ xs := by
  induction xs generalizing sel with
  | nil => cases h; exact fun s hs => .inl hs
  | cons x xs ih =>
    simp only [Selection.pushAll, bind_eq_ok, Prod.exists] at h
    obtain ⟨sel₁, more₁, hpush, h⟩ := h
    have hfirst : ∀ s ∈ sel₁.segments, s ∈ sel.segments ∨ s ∈ x :: xs := by
      intro s hs
      rcases push_segments hpush with heq | heq
      · exact .inl (heq ▸ hs)
      · rw [heq, List.mem_append, List.mem_singleton] at hs
        exact hs.imp_right fun hs => by simp [hs]
    cases more₁
    · cases h
      exact hfirst
    · intro s hs
      rcases ih h s hs with hs | hs
      · exact hfirst s hs
      · exact .inr (List.mem_cons_of_mem _ hs)

/-- A fetch depends only on the record objects. -/
theorem fetchOf_congr (h : ∀ s ∈ v.segments, content' s.object = content s.object) (offset : Int)
    (maximumBytes : Nat) (allow : Bool) :
    fetchOf content' v offset maximumBytes allow = fetchOf content v offset maximumBytes allow := by
  unfold fetchOf
  cases hpush : (Selection.new offset maximumBytes allow).pushAll v.segments with
  | error x => rfl
  | ok out =>
    obtain ⟨selection, more⟩ := out
    have hmap : selection.segments.map (recordBytes content') =
        selection.segments.map (recordBytes content) := by
      refine List.map_congr_left fun s hs => ?_
      have hmem := (pushAll_segments hpush s hs).resolve_left (by simp [Selection.new])
      simp only [recordBytes, h s hmem]
    simp only [bind, Except.bind, hmap]

/-- **Retention is invisible** to fetches at the offsets it keeps. -/
theorem fetchOf_retain (h : self.Coherent content m objects v) {k : Nat} {offset : Int}
    (hoffset : (v.retain k).start ≤ offset) (maximumBytes : Nat) (allow : Bool) :
    fetchOf content (v.retain k) offset maximumBytes allow =
      fetchOf content v offset maximumBytes allow := by
  have htiles := h.tiles
  have hle : v.start ≤ (v.retain k).start := htiles.start_le k
  -- what is removed ends before the offset, so that the selection skips it
  have hskip : ∀ s ∈ v.segments.take k, s.endOffset ≤ offset := by
    intro s hs
    obtain ⟨middle, htake, hdrop⟩ := tiles_append.mp ((List.take_append_drop k v.segments).symm ▸ htiles)
    have hmiddle : (v.retain k).start = middle := (htiles.drop k).start_unique hdrop
    have := (htake.mem hs).2.2
    omega
  have hpush : ∀ sel : Selection, sel.offset = offset →
      sel.pushAll v.segments = sel.pushAll (v.segments.drop k) := by
    intro sel hsel
    conv_lhs => rw [← List.take_append_drop k v.segments]
    rw [pushAll_append, pushAll_skip (fun s hs => h.valid_segments s (List.mem_of_mem_take hs))
      (fun s hs => hsel ▸ hskip s hs)]
    rfl
  have hstart : ¬ offset < (v.retain k).start := by omega
  have hstart' : ¬ offset < v.start := by omega
  have hsegments : (v.retain k).segments = v.segments.drop k := rfl
  have hnext : (v.retain k).next = v.next := rfl
  unfold fetchOf
  rw [hsegments, hnext, hpush _ rfl]
  simp only [hstart, hstart', false_or]

/-! ## The walk -/

/-- The error reports a corrupt object. -/
private def Corrupt (x : LogError) : Prop := ∃ object detail, x = .corruptSegment object detail

private theorem corrupt (object detail : String) : Corrupt (.corruptSegment object detail) :=
  ⟨_, _, rfl⟩

private theorem validateCanonicalSegmentRecords_fails {s : Segment} {records : List Record} :
    FailsWith Corrupt (validateCanonicalSegmentRecords s records) :=
  failsWith_bind (failsWith_mapError fun _ _ => corrupt _ _) fun _ _ =>
    failsWith_bind (failsWith_mapError fun _ _ => corrupt _ _) fun _ _ =>
      failsWith_rejectIf fun _ => corrupt _ _

/-- A complete record object is accepted with its bytes, or reported as corrupt. -/
private theorem acceptSegment_complete {s : Segment} {bytes : List UInt8} :
    (∀ b, self.acceptSegment s ⟨bytes.length, .raw bytes, .ok (.raw bytes)⟩ = .ok b → b = bytes) ∧
      FailsWith Corrupt (self.acceptSegment s ⟨bytes.length, .raw bytes, .ok (.raw bytes)⟩) := by
  -- the whole object was collected, or it was too long
  have hcollect : ∀ body, self.crates.collectBounded ⟨bytes.length, .raw bytes, .ok (.raw bytes)⟩
      s.byteLength = .ok body → body = .raw bytes := by
    intro body hbody
    unfold Crates.collectBounded at hbody
    dsimp only at hbody
    split at hbody
    · cases hbody
    · exact (Except.ok.inj hbody).symm
  -- each check of `accept_segment` either passes or finds the object corrupt
  unfold acceptSegment
  constructor
  · intro b hb
    simp only [bind_eq_ok, okOr_eq_ok] at hb
    obtain ⟨_, -, body, hbody, _, -, bytes', hbytes, _, -, _, -, _, -, _, -, _, -, _, -, hb⟩ := hb
    obtain rfl := hcollect body (mapError_eq_ok.mp hbody)
    cases hbytes
    exact (Except.ok.inj hb).symm
  · refine failsWith_bind (failsWith_rejectIf fun _ => corrupt _ _) fun _ _ => ?_
    refine failsWith_bind (failsWith_mapError fun e he => ?_) fun body _ => ?_
    · unfold Crates.collectBounded at he
      dsimp only at he
      split at he <;> cases he
      exact corrupt _ _
    -- the remaining checks in their order
    refine failsWith_bind (failsWith_rejectIf fun _ => corrupt _ _) fun _ _ => ?_
    refine failsWith_bind (failsWith_okOr (corrupt _ _)) fun _ _ => ?_
    refine failsWith_bind (failsWith_mapError fun _ _ => corrupt _ _) fun _ _ => ?_
    refine failsWith_bind (failsWith_rejectIf fun _ => corrupt _ _) fun _ _ => ?_
    refine failsWith_bind (failsWith_rejectIf fun _ => corrupt _ _) fun _ _ => ?_
    refine failsWith_bind validateCanonicalSegmentRecords_fails fun _ _ => ?_
    refine failsWith_bind (failsWith_mapError fun _ _ => corrupt _ _) fun _ _ => ?_
    exact failsWith_bind (failsWith_rejectIf fun _ => corrupt _ _) fun _ _ => failsWith_ok

private theorem acceptSegment_broken {s : Segment} {bytes : List UInt8}
    (hlength : bytes.length = s.byteLength) (e : StoreError) : ∃ x,
    self.acceptSegment s ⟨bytes.length, .raw bytes, .error e⟩ = .error x ∧ x.Reports e := by
  refine ⟨.missingSegment s.object e, ?_, .inr ⟨_, rfl⟩⟩
  simp [acceptSegment, hlength, Crates.collectBounded, rejectIf, bind, Except.bind, mapError_error]

private theorem readSegment_drafts (htopic : validateTopic self.topic = .ok ())
    (hF : ∀ object detail, ¬ Kafka self.crates → F (.corruptSegment object detail)) {s : Segment}
    {bytes : List UInt8} (h : self.StoredSegment n.content s bytes) :
    self.Drafts (self.readSegment s) n (fun b n' => b = bytes ∧ n' = n) F := by
  obtain ⟨id, hid⟩ := h.named
  have hparse : self.crates.pathParse s.object = .ok s.object := by
    rw [hid]
    exact self.crates.pathParse_segment _ _ _ id self.engine.prefix_safe htopic
  have hsize : self.crates.size (.raw bytes) = bytes.length := rfl
  unfold readSegment
  refine drafts_check_bind_ok (by rw [hparse]; rfl) ?_
  refine ⟨.raw bytes, h.body, ?_, fun e => ⟨_, rfl, .inr ⟨_, rfl⟩⟩, fun e => ?_⟩
  -- all bytes arrive, and are accepted when the crate works as documented
  · rw [hsize]
    refine drafts_check (fun b hb => ⟨acceptSegment_complete.1 b hb, rfl⟩) fun x hx => ?_
    obtain ⟨object, detail, rfl⟩ := acceptSegment_complete.2 x hx
    refine hF object detail fun kafka => ?_
    rw [h.readable kafka] at hx
    cases hx
  -- a body that was cut off is noticed
  · obtain ⟨x, hx, hreports⟩ := acceptSegment_broken h.length e
    refine ⟨x, ?_, hreports⟩
    change Prog.ret (self.acceptSegment s _) = _
    rw [hsize, hx]

/-- The selected record objects are read. -/
theorem readSegments_drafts (htopic : validateTopic self.topic = .ok ())
    (hF : ∀ object detail, ¬ Kafka self.crates → F (.corruptSegment object detail)) :
    ∀ {segments : List Segment}, self.Stored n.content segments →
      self.Drafts (self.readSegments segments) n (fun bytes n' =>
        bytes = (segments.map (recordBytes n.content)).flatten ∧ n' = n) F := by
  intro segments
  induction segments with
  | nil => exact fun _ => drafting_pure ⟨rfl, rfl⟩
  | cons s segments ih =>
    intro hstored
    obtain ⟨bytes, hbytes⟩ := hstored s (by simp)
    refine drafting_bind (readSegment_drafts htopic hF hbytes) ?_
    rintro b n' - ⟨rfl, hn⟩
    rw [hn]
    refine drafting_bind (ih fun t ht => hstored t (by simp [ht])) ?_
    rintro rest n' - ⟨rfl, hn⟩
    rw [hn]
    exact drafting_pure ⟨by simp [hbytes.recordBytes], rfl⟩

/-! ## A fetch only reads -/

theorem readPage_reads (r : PageRef) : Issues Cmd.Reads (self.readPage r) := by
  unfold readPage
  refine issues_bind issues_check fun _ => issues_bind (issues_lift (by simp [Cmd.Reads])) fun r => ?_
  refine issues_bind ?_ fun _ => issues_check
  cases r
  · exact issues_throw _
  · exact issues_pure _

theorem selectIndexLoop_reads (stack : List PageRef) (sel : Selection) :
    Issues Cmd.Reads (self.selectIndexLoop stack sel) := by
  induction hweight : pageWeight stack using Nat.strong_induction_on generalizing stack sel with
  | _ weight ih =>
  subst hweight
  cases stack with
  | nil =>
    rw [selectIndexLoop]
    exact issues_pure _
  | cons r stack =>
    rw [selectIndexLoop]
    have hpop := pageWeight_pop r stack
    split
    · exact ih _ hpop stack sel rfl
    refine issues_bind (readPage_reads r) ?_
    rintro ⟨segments | children, hpage⟩
    · refine issues_bind issues_check ?_
      rintro ⟨sel', _ | _⟩
      · exact issues_pure _
      · exact ih _ hpop stack sel' rfl
    · exact ih _ (pageWeight_children stack hpage
        (List.filter_sublist (p := fun c => decide (c.nextOffset > sel.offset)))) _ sel rfl

theorem readSegments_reads (segments : List Segment) :
    Issues Cmd.Reads (self.readSegments segments) := by
  induction segments with
  | nil => exact issues_pure _
  | cons s segments ih =>
    unfold readSegments
    refine issues_bind ?_ fun _ => issues_bind ih fun _ => issues_pure _
    unfold readSegment
    refine issues_bind issues_check fun path => issues_bind (issues_lift (by simp [Cmd.Reads])) fun r => ?_
    cases r
    · exact issues_throw _
    · exact issues_check

theorem fetchSnapshot_reads (m : LogManifest) (offset : Int) (maximumBytes : Nat) (allow : Bool) :
    Issues Cmd.Reads (self.fetchSnapshot m offset maximumBytes allow) := by
  unfold fetchSnapshot
  dsimp only
  split
  · exact issues_throw _
  split
  · exact issues_pure _
  refine issues_bind ?_ fun _ => issues_bind (readSegments_reads _) fun _ => issues_pure _
  cases m with
  | legacy m => exact issues_bind issues_check fun _ => issues_pure _
  | indexed root =>
    refine issues_bind (selectIndexLoop_reads _ _) ?_
    rintro ⟨sel, _ | _⟩
    · exact issues_pure _
    · exact issues_bind issues_check fun _ => issues_pure _

/-- **One snapshot**: from a coherent manifest, `fetch_snapshot` returns what a fetch from
the log returns. -/
theorem fetchSnapshot_drafts (htopic : validateTopic self.topic = .ok ())
    (h : self.Coherent n.content m objects v) (offset : Int) (maximumBytes : Nat) (allow : Bool) :
    self.Drafts (self.fetchSnapshot m offset maximumBytes allow) n
      (fun fetched n' => fetchOf n.content v offset maximumBytes allow = .ok fetched ∧ n' = n)
      (fun x => fetchOf n.content v offset maximumBytes allow = .error x ∧
          x = .offsetOutOfRange offset v.next ∨
        ¬ Kafka self.crates ∧ ∃ object detail, x = .corruptSegment object detail) := by
  unfold fetchSnapshot fetchOf
  rw [← h.next_eq, ← h.start_eq]
  -- an offset outside the log
  by_cases hrange : offset < v.start ∨ offset > v.next
  · simp only [if_pos hrange]
    exact drafting_throw (.inl ⟨rfl, rfl⟩)
  -- an offset at its end
  by_cases hend : offset = v.next
  · simp only [if_neg hrange, if_pos hend]
    exact drafting_pure ⟨rfl, rfl⟩
  -- an offset within: the segments from there on are selected
  simp only [if_neg hrange, if_neg hend]
  obtain ⟨out, hout⟩ := pushAll_total (Selection.new offset maximumBytes allow)
    h.valid_segments
  -- the tree and the tail list the segments of the state
  have hselect : self.Drafts (self.selectSegments m (Selection.new offset maximumBytes allow)) n
      (fun selection n' => selection = out.1 ∧ n' = n) (fun x =>
        ¬ Kafka self.crates ∧ ∃ object detail, x = .corruptSegment object detail) := by
    cases m with
    | legacy m =>
      have hstate := h.state
      have hout' : (Selection.new offset maximumBytes allow).pushAll m.segments = .ok out := by
        rw [hstate] at hout
        exact hout
      exact drafts_check_bind_ok hout' (drafting_pure ⟨rfl, rfl⟩)
    | indexed root =>
      obtain ⟨os, ps, hindexed, -, -⟩ := h.pages
      obtain ⟨ss, hforest, hss⟩ := hindexed.forest
      refine indexedSegments_drafts hforest (fun s hs => hindexed.valid s ?_) fun out' hout' => ?_
      · rw [hss]
        exact List.mem_append_right _ hs
      · rw [← hss, hout] at hout'
        exact ⟨congrArg Prod.fst (Except.ok.inj hout').symm, rfl⟩
  refine drafting_bind (drafting_mono hselect (fun _ _ _ h => h) fun x hx => .inr hx) ?_
  rintro selection n' - ⟨rfl, hn⟩
  rw [hn]
  -- what is selected is stored, and is read in order
  have hstored : self.Stored n.content out.1.segments := by
    intro s hs
    exact h.stored_segments s ((pushAll_segments hout s hs).resolve_left (by simp [Selection.new]))
  refine drafting_bind (readSegments_drafts htopic
    (fun object detail hkafka => .inr ⟨hkafka, object, detail, rfl⟩) hstored) ?_
  rintro bytes n' - ⟨rfl, hn⟩
  rw [hn]
  refine drafting_pure ⟨?_, rfl⟩
  rw [hout]
  rfl

end PartitionLog

end Walstream.Log
