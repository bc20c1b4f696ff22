import Walstream.Log.AtMostOnce

/-!
# Revisions

Every publication has a later revision than the manifest it replaces, so no manifest is ever
published twice, and a conditional write that names a manifest by its content replaces that very
publication.

- `versions`: the contents of the manifest object, one after the other.
- `Service.revisions_increase`: they are all different.
-/

namespace Walstream.Log

open Interaction PartitionLog Scene

section Chain

variable {Client : Type} {objects objects' : String → Option Body} {e : Event Client Body}
  {es es' : List (Event Client Body)}

/-- The contents of the manifest object from the beginning on. -/
def versions (log : PartitionLog) (objects : String → Option Body) (es : List (Event Client Body)) :
    List (Option Body) :=
  objects log.manifestPath ::
    (es.filter fun e => e.path = log.manifestPath).map Event.body

theorem versions_append (log : PartitionLog) :
    versions log objects (es ++ es') =
      versions log objects es ++ (es'.filter fun e => e.path = log.manifestPath).map Event.body := by
  simp [versions]

theorem leads_concat (h : Leads objects (es ++ [e]) objects') :
    Leads objects es e.before ∧ objects' = e.after := by
  generalize hall : es ++ [e] = all at h
  cases h with
  | refl => simp at hall
  | step h =>
    obtain ⟨rfl, hlast⟩ := List.append_inj' hall rfl
    cases hlast
    exact ⟨h, rfl⟩

theorem leads_unique {middle : String → Option Body} (h : Leads objects es objects')
    (h' : Leads objects es middle) : objects' = middle := by
  cases h with
  | refl =>
    generalize hes : ([] : List (Event Client Body)) = es at h'
    cases h' with
    | refl => rfl
    | step => simp at hes
  | step => exact (leads_concat h').2.symm

/-- The last version is the one in the bucket. -/
theorem getLast_versions {log : PartitionLog} (h : Leads objects es objects') :
    (versions log objects es).getLast? = some (objects' log.manifestPath) := by
  induction h with
  | refl => rfl
  | @step es e _ ih =>
    rw [versions_append]
    by_cases hpath : e.path = log.manifestPath
    · simp [hpath, Event.after]
    · simpa [hpath, Event.after, Function.update_of_ne (Ne.symm hpath)] using ih

variable {Y : Service Client} {g : Genesis Y.log} {v v' : LogState}
  {commits new : List (List Record × Int)}

/-- The revisions of the versions increase. -/
theorem Chronicle.revisions (h : Chronicle Y g es v commits) (hleads : Leads g.objects es objects) :
    (versions Y.log g.objects es).Pairwise
      fun a b => (manifestOf a).revision < (manifestOf b).revision := by
  induction h generalizing objects with
  | start => exact List.pairwise_singleton ..
  | other _ hpath ih =>
    obtain ⟨hbefore, -⟩ := leads_concat hleads
    rw [versions_append]
    simpa [hpath] using ih hbefore
  | @publish es _ _ _ _ e root _ _ _ hpath hbody _ _ hadvance ih =>
    obtain ⟨hbefore, -⟩ := leads_concat hleads
    have hversions : versions Y.log g.objects (es ++ [e]) = versions Y.log g.objects es ++ [e.body] := by
      rw [versions_append]
      simp [hpath]
    rw [hversions, List.pairwise_append]
    refine ⟨ih hbefore, List.pairwise_singleton .., fun a ha b hb => ?_⟩
    obtain rfl := List.mem_singleton.mp hb
    -- the version that is replaced is the latest, and its revision the greatest
    obtain ⟨earlier, hlast⟩ := List.getLast?_eq_some_iff.mp (getLast_versions hbefore)
    have hlt : (manifestOf (e.before Y.log.manifestPath)).revision < (manifestOf e.body).revision := by
      rw [hbody]
      exact hadvance.revision_lt
    have hsorted := ih hbefore
    rw [hlast] at ha hsorted
    rcases List.mem_append.mp ha with ha | ha
    · exact ((List.pairwise_append.mp hsorted).2.2 a ha _ (List.mem_singleton_self _)).trans hlt
    · rwa [List.mem_singleton.mp ha]

/-- A version that is there again was never replaced. -/
theorem Chronicle.no_return {middle : String → Option Body}
    (h : Chronicle Y g (es ++ es') v commits) (hleads : Leads g.objects (es ++ es') objects)
    (hmiddle : Leads g.objects es middle)
    (hsame : middle Y.log.manifestPath = objects Y.log.manifestPath) :
    ∀ e ∈ es', e.path ≠ Y.log.manifestPath := by
  intro e he hpath
  have hsorted := h.revisions hleads
  have hlast : (versions Y.log g.objects (es ++ es')).getLast? = _ := getLast_versions hleads
  rw [versions_append] at hsorted hlast
  -- the last version is one of the later ones
  have hne : (es'.filter fun e => e.path = Y.log.manifestPath).map Event.body ≠ [] := by
    simp only [ne_eq, List.map_eq_nil_iff, List.filter_eq_nil_iff, not_forall]
    exact ⟨e, he, by simpa using hpath⟩
  rw [List.getLast?_append_of_ne_nil _ hne] at hlast
  have hlt := (List.pairwise_append.mp hsorted).2.2 _ (List.mem_of_getLast? (getLast_versions hmiddle)) _
    (List.mem_of_getLast? hlast)
  rw [hsame] at hlt
  exact lt_irrefl _ hlt

end Chain

/-! ## All interleavings -/

variable {Client : Type} [DecidableEq Client]

/-- The revisions of a configuration. -/
structure Revised (Y : Service Client) (g : Genesis Y.log)
    (cfg : Config Client (Cmd Body) Resp (Bucket Client Body) Outcome) : Prop where
  /-- An append raises the revision by the number of its new segments, maintenance by one; and it is
  at least the number of segments. -/
  step : ∀ es e es', cfg.shared.history = es ++ e :: es' → e.path = Y.log.manifestPath →
    ∃ root v₁ v₂ new, e.body = some (.manifest (.indexed root)) ∧ Publication Y e v₁ v₂ new ∧
      (Appends Y e v₁ v₂ new ∧
          root.revision = (Y.log.manifestIn e.before).revision + new.length ∧
          v₂.segments.length = v₁.segments.length + new.length ∨
        Expires Y e v₁ v₂ ∧ root.revision = (Y.log.manifestIn e.before).revision + 1) ∧
      v₂.segments.length ≤ root.revision
  /-- Revisions increase from version to version. -/
  increase : (versions Y.log g.objects cfg.shared.history).Pairwise
    fun a b => (manifestOf a).revision < (manifestOf b).revision
  /-- No manifest is published twice. -/
  distinct : (versions Y.log g.objects cfg.shared.history).Nodup
  /-- When a conditional write that names an earlier version could take effect now, that version has
  been there all the time. -/
  unreplaced : ∀ es es' objects, cfg.shared.history = es ++ es' → Leads g.objects es objects →
    cfg.shared.Admits Y.log.manifestPath (modeOf (objects Y.log.manifestPath)) →
    ∀ e ∈ es', e.path ≠ Y.log.manifestPath

omit [DecidableEq Client] in
/-- What a link of the chain does to the revision. -/
theorem Publication.revision {Y : Service Client} {e : Event Client Body} {v v' : LogState}
    {new : List (List Record × Int)} (h : Publication Y e v v' new) :
    ∃ root, e.body = some (.manifest (.indexed root)) ∧
      (Appends Y e v v' new ∧ root.revision = (Y.log.manifestIn e.before).revision + new.length ∧
          v'.segments.length = v.segments.length + new.length ∨
        Expires Y e v v' ∧ root.revision = (Y.log.manifestIn e.before).revision + 1) ∧
      v'.segments.length ≤ root.revision := by
  obtain ⟨root, live, live', hbody, hbefore, hafter, hadvance⟩ := h.change
  refine ⟨root, hbody, ?_, hafter.count⟩
  -- an append counts its batches, and maintenance counts one
  rcases h.cases with happends | ⟨-, hexpires⟩
  · obtain ⟨_, _, _, _, _, segments, hop, -, -, -, -, hholds, hsegments⟩ := happends.request
    refine .inl ⟨happends, ?_, by rw [hsegments, List.length_append, hholds.length_eq]⟩
    cases hadvance with
    | append _ _ _ _ _ hrenewed => exact hrenewed.revision
    | retain hop' =>
      rw [hop] at hop'
      cases hop'
  · obtain ⟨_, _, hop, -⟩ := hexpires.request
    refine .inr ⟨hexpires, ?_⟩
    cases hadvance with
    | append hop' =>
      rw [hop] at hop'
      cases hop'
    | retain _ _ _ hrenewed => exact hrenewed.revision

/-- The record of a reachable bucket. -/
theorem Service.leads (Y : Service Client) (g : Genesis Y.log)
    {cfg : Config Client (Cmd Body) Resp (Bucket Client Body) Outcome}
    (h : Y.system.Reachable g.bucket cfg) :
    Leads g.objects cfg.shared.history cfg.shared.objects :=
  System.reachable_shared (P := fun b : Bucket Client Body => Leads g.objects b.history b.objects)
    (fun _ _ _ _ _ hb hexec => hb.next (Bucket.Executes.next hexec))
    (fun _ _ hb hs => hb.next (Bucket.Delivered.next hs))
    (.refl g.objects) h

/-- **Revisions rule out ABA**: in every interleaving each publication has a later revision than all
manifests before it, and a conditional write finds the very manifest that was loaded. -/
theorem Service.revisions_increase (Y : Service Client) (g : Genesis Y.log)
    {cfg : Config Client (Cmd Body) Resp (Bucket Client Body) Outcome}
    (h : Y.system.Reachable g.bucket cfg) : Revised Y g cfg := by
  obtain ⟨_, _, _, hchronicle, -⟩ := Service.reachable_chronicle h
  have hleads := Y.leads g h
  have hsorted := hchronicle.revisions hleads
  refine ⟨fun es e es' hhistory hpath => ?_, hsorted, hsorted.imp fun hlt heq => ?_,
    fun es es' objects hhistory hmiddle hadmits => ?_⟩
  -- the change is a link of the chain
  · rw [hhistory, List.append_cons] at hchronicle
    obtain ⟨v₂, commits₂, hlast, -⟩ := hchronicle.split
    rcases hlast.concat with ⟨hother, -⟩ | ⟨v₁, new, _, -, -, hlink⟩
    · exact absurd hpath hother
    obtain ⟨root, hbody, hrevision, hcount⟩ := hlink.revision
    exact ⟨root, v₁, v₂, new, hbody, hlink, hrevision, hcount⟩
  · rw [heq] at hlt
    exact lt_irrefl _ hlt
  -- the manifest that is replaced has the revision that was loaded
  · rw [hhistory] at hchronicle hleads
    refine hchronicle.no_return hleads hmiddle ?_
    cases hobject : objects Y.log.manifestPath with
    | none =>
      rw [hobject] at hadmits
      exact hadmits.symm
    | some body =>
      rw [hobject] at hadmits
      exact hadmits.symm

/-- The revisions of the first run. -/
theorem Reference.revisions_increase_first : ∃ cfg, Reference.service.system.Reachable
      Reference.genesis.bucket cfg ∧
    (∃ s report, cfg.tasks 2 = some ⟨s, .ret (.maintained (.ok report))⟩) ∧
    Revised Reference.service Reference.genesis cfg := by
  obtain ⟨cfg, hreach, -, -, h₂, -⟩ := Reference.service_runs
  exact ⟨cfg, hreach, h₂, Service.revisions_increase Reference.service Reference.genesis hreach⟩

end Walstream.Log
