import Walstream.Log.World

/-!
# Steps between worlds

Each effect a request can have on the bucket leads from a sound world to a sound world that
may come later, and harms no client but the one that sent it: names are drawn, a content is
promised to a name, a request goes under way or arrives.
-/

namespace Walstream.Log

open Interaction PartitionLog

namespace Scene

variable {Client : Type} {Y : Service Client} {g : Genesis Y.log} {w : Scene Client}

/-! ## Facts of a sound world -/

theorem ne_manifestPath (g : Genesis Y.log) {path : String} (h : Y.log.Filed path) :
    path ≠ Y.log.manifestPath := by
  rintro rfl
  exact Y.log.manifestPath_not_filed g.partition g.partition h

theorem ne_manifestPath₀ (g : Genesis Y.log) {path : String} (h : Y.log.Filed path) :
    path ≠ Y.log.engine.manifestPath Y.log.topic 0 := by
  rintro rfl
  exact Y.log.manifestPath_not_filed g.partition le_rfl h

theorem ne_metadataPath (g : Genesis Y.log) {path : String} (h : Y.log.Filed path) :
    path ≠ Y.log.topicMetadataPath := by
  rintro rfl
  exact Y.log.topicMetadataPath_not_filed g.partition h

theorem manifestPath_ne_metadataPath (g : Genesis Y.log) :
    Y.log.manifestPath ≠ Y.log.topicMetadataPath := Y.log.manifestPath_ne_topicMetadataPath g.partition

namespace Sound

/-- What the current manifest reaches is there. -/
theorem live_present (h : Sound Y g w) {o : String} (ho : o ∈ w.live) :
    w.bucket.objects o = w.made o := by
  obtain ⟨body, hbody⟩ := Option.ne_none_iff_exists'.mp (h.coherent.ne_none ho)
  rw [hbody, h.present hbody fun hdead => hdead.2.2 ho]

/-- The current manifest is coherent in the bucket. -/
theorem coherent_bucket (h : Sound Y g w) :
    Y.log.Coherent w.bucket.objects (w.manifest Y.log) w.live w.state :=
  h.coherent.mono fun _ ho => h.live_present ho

theorem reserved_filed (h : Sound Y g w) {cl : Client} {path : String} (hr : w.Reserved cl path) :
    Y.log.Filed path ∧ Y.log.crates.pathFrom path = path ∧ w.Settled Y.log path := by
  have hsome : w.owner path ≠ none := fun hnone => by simp [Reserved, hnone] at hr
  obtain ⟨hnamed, hsettled⟩ := h.owner hsome
  exact ⟨hnamed.filed, Y.log.pathFrom_named g.topic hnamed, hsettled⟩

theorem made_filed (h : Sound Y g w) {path : String} {body : Body} (hm : w.made path = some body) :
    Y.log.Filed path := (h.filed (by simp [h.made hm])).1

end Sound

/-! ## Names -/

open Classical in
/-- The names of a UUID are drawn for a change of this revision. -/
noncomputable def draw (log : PartitionLog) (w : Scene Client) (cl : Client) (revision : Nat)
    (id : Uuid) : Scene Client :=
  { w with
    bucket := { w.bucket with issued := insert id w.bucket.issued }
    owner := fun path => if path ∈ log.names id then some (cl, revision) else w.owner path }

section Draw

variable {cl : Client} {base : Nat} {id : Uuid}

private theorem not_settled (hid : id ∉ w.bucket.issued) {path : String} (hp : path ∈ Y.log.names id) :
    ¬ w.Settled Y.log path := fun h => hid (h id hp)

theorem draw_le (hid : id ∉ w.bucket.issued) : Le Y.log w (w.draw Y.log cl base id) where
  issued := Set.subset_insert _ _
  made := fun h => h
  promised := fun h => h
  owner := fun {path} hp => by
    have hnot : path ∉ Y.log.names id := fun hmem => not_settled hid hmem hp
    simp [draw, hnot]
  head := .inl rfl
  dead := fun {path} hd => by
    have hnot : path ∉ Y.log.names id := fun hmem => not_settled hid hmem hd.1
    have hrank : (w.draw Y.log cl base id).rank path = w.rank path := by simp [rank, draw, hnot]
    refine ⟨fun id' hid' => Set.mem_insert_of_mem _ (hd.1 id' hid'), ?_, hd.2.2⟩
    rw [hrank]
    exact hd.2.1
  metadata := fun h => h
  manifest₀ := fun h => h
  history := List.prefix_rfl
  moments := List.prefix_rfl

theorem Sound.draw (h : Sound Y g w) (hid : id ∉ w.bucket.issued) (hbase : base ≤ w.revision Y.log) :
    Sound Y g (w.draw Y.log cl base id) := by
  have hle : Le Y.log w (w.draw Y.log cl base id) := draw_le hid
  -- the names of the id are now taken
  have hsettled : ∀ {path}, path ∈ Y.log.names id → (w.draw Y.log cl base id).Settled Y.log path := by
    intro path hp id' hid'
    rw [Y.log.names_disjoint hid' hp]
    exact Set.mem_insert _ _
  exact {
    order := h.order
    order₀ := h.order₀
    coherent := h.coherent
    filed := fun hp => (h.filed hp).imp_right fun hq => hq.imp_right hle.settled
    made := h.made
    agrees := h.agrees
    present := fun {path body} hm hdead => h.present hm fun hd => hdead (hle.dead hd)
    held := fun hh => (h.held hh).imp_left hle.settled
    -- the new names belong to the client, and to nobody else
    owner := fun {path} ho => by
      by_cases hp : path ∈ Y.log.names id
      · exact ⟨⟨id, hp⟩, hsettled hp⟩
      · exact (h.owner (by simpa [Scene.draw, hp] using ho)).imp_right hle.settled
    -- they have the rank of the manifest on which the draft is based
    rank_le := fun path => by
      by_cases hp : path ∈ Y.log.names id
      · have hrank : (w.draw Y.log cl base id).rank path = base := by simp [Scene.rank, Scene.draw, hp]
        rw [hrank]
        exact hbase
      · have hrank : (w.draw Y.log cl base id).rank path = w.rank path := by
          simp [Scene.rank, Scene.draw, hp]
        rw [hrank]
        exact h.rank_le path
    inFlight := fun req hreq => (h.inFlight req hreq).later hle
    deletions := h.deletions
    chronicle := h.chronicle
    single := h.single }

theorem draw_unharmed (h : Sound Y g w) (hid : id ∉ w.bucket.issued) {cl' : Client} :
    Unharmed Y.log cl' w (w.draw Y.log cl base id) where
  reserved := fun {path} hr => by
    have hsome : w.owner path ≠ none := fun hnone => by simp [Reserved, hnone] at hr
    have hnot : path ∉ Y.log.names id := fun hmem => not_settled hid hmem (h.owner hsome).2
    have howner : (w.draw Y.log cl base id).owner path = w.owner path := by simp [draw, hnot]
    exact ⟨by rw [howner]; exact hr.1, hr.2⟩
  tally := le_rfl

variable (cl base) in
/-- The names drawn are reserved. -/
theorem draw_reserved (h : Sound Y g w) (hid : id ∉ w.bucket.issued) {path : String}
    (hp : path ∈ Y.log.names id) : (w.draw Y.log cl base id).Reserved cl path ∧
      (w.draw Y.log cl base id).rank path = base := by
  have hnot := not_settled (Y := Y) hid hp
  refine ⟨⟨by simp [draw, hp], ?_, ?_⟩, by simp [rank, draw, hp]⟩
  · by_contra hne
    exact hnot (h.filed hne).2.2
  · by_contra hne
    obtain ⟨body, hbody⟩ := Option.ne_none_iff_exists'.mp hne
    exact hnot (h.held (.inl hbody)).1

end Draw

/-- A content is promised to a name. -/
def promise (w : Scene Client) (path : String) (body : Body) : Scene Client :=
  { w with promised := Function.update w.promised path (some body) }

section Promise

variable {cl : Client} {path : String} {body : Body}

theorem promise_le (hr : w.Reserved cl path) : Le Y.log w (w.promise path body) where
  issued := subset_rfl
  made := fun h => h
  promised := fun {path' body'} hp => by
    have hne : path' ≠ path := fun heq => by simp [heq, hr.2.1] at hp
    simpa [promise, hne] using hp
  owner := fun _ => rfl
  head := .inl rfl
  dead := fun h => h
  metadata := fun h => h
  manifest₀ := fun h => h
  history := List.prefix_rfl
  moments := List.prefix_rfl

theorem Sound.promise (h : Sound Y g w) (hr : w.Reserved cl path) :
    Sound Y g (w.promise path body) := by
  have hle : Le Y.log w (w.promise path body) := promise_le hr
  exact {
    order := h.order
    order₀ := h.order₀
    coherent := h.coherent
    -- the promised object has its place, and the others keep theirs
    filed := fun {path'} hp => by
      by_cases heq : path' = path
      · subst heq
        exact h.reserved_filed hr
      · exact h.filed (by simpa [Scene.promise, heq] using hp)
    made := fun hm => hle.promised (h.made hm)
    -- the path is free, so that nothing contradicts the promise
    agrees := fun {path' body₁ body₂} hp ho => by
      by_cases heq : path' = path
      · subst heq
        have hnone : w.bucket.objects path' = none := hr.2.2
        have ho' : w.bucket.objects path' = some body₂ := ho
        rw [hnone] at ho'
        cases ho'
      · exact h.agrees (by simpa [Scene.promise, heq] using hp) ho
    present := h.present
    held := h.held
    owner := h.owner
    rank_le := h.rank_le
    inFlight := fun req hreq => (h.inFlight req hreq).later hle
    deletions := h.deletions
    chronicle := h.chronicle
    single := h.single }

theorem promise_reserved {cl' : Client} {path' : String} (hne : path' ≠ path)
    (hr : w.Reserved cl' path') : (w.promise path body).Reserved cl' path' :=
  ⟨hr.1, by simpa [promise, hne] using hr.2.1, hr.2.2⟩

theorem promise_unharmed (hr : w.Reserved cl path) {cl' : Client} (hcl : cl' ≠ cl) :
    Unharmed Y.log cl' w (w.promise path body) where
  reserved := fun {path'} hr' => by
    refine promise_reserved ?_ hr'
    rintro rfl
    exact hcl (Option.some.inj (hr'.1.symm.trans hr.1))
  tally := le_rfl

end Promise

/-! ## Requests under way -/

/-- Other requests are under way. -/
def reroute (w : Scene Client) (requests : List (Request Client Body)) : Scene Client :=
  { w with bucket := { w.bucket with inFlight := requests } }

section Reroute

variable {requests : List (Request Client Body)}

theorem reroute_le : Le Y.log w (w.reroute requests) where
  issued := subset_rfl
  made := fun h => h
  promised := fun h => h
  owner := fun _ => rfl
  head := .inl rfl
  dead := fun h => h
  metadata := fun h => h
  manifest₀ := fun h => h
  history := List.prefix_rfl
  moments := List.prefix_rfl

theorem Sound.reroute (h : Sound Y g w) (hrequests : ∀ req ∈ requests, w.Sanctioned Y req)
    (hsingle : ∀ cl, Single Y cl → (w.reroute requests).tally Y.log cl ≤ 1) :
    Sound Y g (w.reroute requests) where
  order := h.order
  order₀ := h.order₀
  coherent := h.coherent
  filed := h.filed
  made := h.made
  agrees := h.agrees
  present := h.present
  held := h.held
  owner := h.owner
  rank_le := h.rank_le
  inFlight := fun req hreq => (hrequests req hreq).later reroute_le
  deletions := h.deletions
  chronicle := h.chronicle
  single := hsingle

open Classical in
/-- A request goes under way. -/
theorem Sound.send (h : Sound Y g w) {req : Request Client Body} (hreq : w.Sanctioned Y req)
    (hsingle : ∀ cl, Single Y cl → Publishes Y.log cl req → w.tally Y.log cl = 0) :
    Sound Y g (w.reroute (req :: w.bucket.inFlight)) := by
  refine h.reroute (fun req' hreq' => ?_) fun cl hcl => ?_
  · rcases List.mem_cons.mp hreq' with rfl | hreq'
    · exact hreq
    · exact h.inFlight req' hreq'
  · have htally : (w.reroute (req :: w.bucket.inFlight)).tally Y.log cl =
        w.tally Y.log cl + if Publishes Y.log cl req then 1 else 0 := by
      simp only [tally, Scene.reroute, List.countP_cons, decide_eq_true_eq]
      omega
    have := h.single cl hcl
    rw [htally]
    split
    · rename_i hpub
      rw [hsingle cl hcl hpub]
    · exact this

open Classical in
theorem send_unharmed {cl : Client} {req : Request Client Body} (hreq : ¬ Publishes Y.log cl req) :
    Unharmed Y.log cl w (w.reroute (req :: w.bucket.inFlight)) where
  reserved := fun h => h
  tally := by simp [tally, reroute, hreq]

open Classical in
/-- A request is no longer under way. -/
theorem Sound.drop (h : Sound Y g w) {req : Request Client Body}
    {l₁ l₂ : List (Request Client Body)} (heq : w.bucket.inFlight = l₁ ++ req :: l₂) :
    Sound Y g (w.reroute (l₁ ++ l₂)) ∧ w.Sanctioned Y req ∧
      ∀ cl, Unharmed Y.log cl w (w.reroute (l₁ ++ l₂)) ∧ (Publishes Y.log cl req →
        (w.reroute (l₁ ++ l₂)).tally Y.log cl + 1 = w.tally Y.log cl) := by
  have htally : ∀ cl, w.tally Y.log cl =
      (w.reroute (l₁ ++ l₂)).tally Y.log cl + if Publishes Y.log cl req then 1 else 0 := by
    intro cl
    simp only [tally, Scene.reroute, heq, List.countP_append, List.countP_cons, decide_eq_true_eq]
    omega
  have hle : ∀ cl, (w.reroute (l₁ ++ l₂)).tally Y.log cl ≤ w.tally Y.log cl := fun cl => by
    rw [htally cl]
    exact Nat.le_add_right _ _
  refine ⟨h.reroute (fun req' hreq' => h.inFlight req' ?_) fun cl hcl =>
    (hle cl).trans (h.single cl hcl), h.inFlight req (by simp [heq]), fun cl =>
    ⟨⟨fun h => h, hle cl⟩, fun hpub => ?_⟩⟩
  · rw [heq]
    rcases List.mem_append.mp hreq' with hmem | hmem <;> simp [hmem]
  · rw [htally cl, if_pos hpub]

end Reroute

/-! ## Changes of the bucket -/

section Change

variable {cl : Client} {path : String} {body : Option Body}

theorem moments_change (b : Bucket Client Body) :
    b.moments <+: (b.change cl path body).moments := by
  simp only [Bucket.moments, Bucket.change_history, List.map_append, List.map_cons, List.map_nil,
    Bucket.change_objects]
  exact List.prefix_append _ _

open Classical in
theorem tally_change (made : String → Option Body) (live : List String) (state : LogState)
    (commits : List (List Record × Int)) (cl' : Client) :
    ({ w with
      bucket := w.bucket.change cl path body
      made := made
      live := live
      state := state
      commits := commits } : Scene Client).tally Y.log cl' =
      w.tally Y.log cl' + if cl = cl' ∧ path = Y.log.manifestPath then 1 else 0 := by
  simp only [tally, Bucket.change_history, List.countP_append, List.countP_cons, List.countP_nil,
    Bucket.change_inFlight, decide_eq_true_eq]
  omega

/-- The content of one object other than the manifest changes. -/
def alter (w : Scene Client) (cl : Client) (path : String) (body : Option Body)
    (made : String → Option Body) : Scene Client :=
  { w with
    bucket := w.bucket.change cl path body
    made := made }

variable {made : String → Option Body}

theorem alter_le (hpath : path ≠ Y.log.manifestPath)
    (hpath₀ : path ≠ Y.log.engine.manifestPath Y.log.topic 0)
    (hmetadata : path = Y.log.topicMetadataPath → w.bucket.objects path = none)
    (hmade : ∀ {p b}, w.made p = some b → made p = some b) :
    Le Y.log w (w.alter cl path body made) := by
  have hhead : (w.alter cl path body made).head Y.log = w.head Y.log := by
    simp [head, alter, Function.update_of_ne hpath.symm]
  have hrevision : (w.alter cl path body made).revision Y.log = w.revision Y.log := by
    rw [revision, revision, manifest_eq, manifest_eq, hhead]
  exact {
    issued := subset_rfl
    made := hmade
    promised := fun h => h
    owner := fun _ => rfl
    head := .inl hhead
    dead := fun hd => ⟨hd.1, by rw [hrevision]; exact hd.2.1, hd.2.2⟩
    metadata := fun {b} hb => by
      by_cases heq : path = Y.log.topicMetadataPath
      · rw [← heq, hmetadata heq] at hb
        cases hb
      · simpa [alter, Function.update_of_ne (Ne.symm heq)] using hb
    manifest₀ := fun hb => by simpa [alter, Function.update_of_ne hpath₀.symm] using hb
    history := List.prefix_append _ _
    moments := moments_change _ }

/-- A change of an object other than the manifest keeps the invariant when the object gets
what was promised, and is deleted only when dead. -/
theorem Sound.alter (h : Sound Y g w) (hpath : path ≠ Y.log.manifestPath)
    (hpath₀ : path ≠ Y.log.engine.manifestPath Y.log.topic 0)
    (hle : Le Y.log w (w.alter cl path body made))
    (hmade : ∀ {p b}, made p = some b → w.promised p = some b)
    (hagrees : ∀ {b b'}, w.promised path = some b → body = some b' → b' = b)
    (hpresent : ∀ {p b}, made p = some b → ¬ w.Dead Y.log p →
      Function.update w.bucket.objects path body p = some b)
    (hheld : body ≠ none → w.Settled Y.log path ∧
      (Y.log.Filed path → Y.log.crates.pathFrom path = path))
    (hdeleted : body = none → Y.log.Filed path) : Sound Y g (w.alter cl path body made) := by
  -- the manifest is another object, and stays
  have hmanifest : (w.alter cl path body made).manifest Y.log = w.manifest Y.log := by
    simp [manifest, manifestIn, Scene.alter, Function.update_of_ne hpath.symm]
  exact {
    order := fun b hb => h.order b (by
      simpa [Scene.alter, Function.update_of_ne hpath.symm] using hb)
    order₀ := fun b hb => h.order₀ b (by
      have hne : PartitionLog.manifestPath { Y.log with partition := 0 } ≠ path := hpath₀.symm
      simpa [Scene.alter, Function.update_of_ne hne] using hb)
    coherent := hmanifest ▸ h.coherent.extend fun _ _ => hle.made
    filed := h.filed
    made := hmade
    -- the object gets what was promised
    agrees := fun {p b b'} hp ho => by
      by_cases heq : p = path
      · subst heq
        exact hagrees hp (by simpa [Scene.alter] using ho)
      · exact h.agrees hp (by simpa [Scene.alter, Function.update_of_ne heq] using ho)
    present := fun hm hdead => hpresent hm fun hd => hdead (hle.dead hd)
    -- who is there now was there, or is the new one
    held := fun {p b} hh => by
      rcases Bucket.held_change hh with hh | ⟨rfl, rfl⟩
      · exact h.held hh
      · exact hheld (by simp)
    owner := h.owner
    rank_le := fun p => (h.rank_le p).trans hle.revision
    inFlight := fun req hreq => (h.inFlight req hreq).later hle
    -- only objects that may be deleted are
    deletions := fun e he hnone => by
      rcases List.mem_append.mp he with he | he
      · exact h.deletions e he hnone
      · rw [List.mem_singleton] at he
        subst he
        exact hdeleted hnone
    chronicle := .other h.chronicle hpath
    single := fun cl' hcl' => by
      have : (w.alter cl path body made).tally Y.log cl' = w.tally Y.log cl' := by
        rw [Scene.alter, tally_change made w.live w.state w.commits cl', if_neg fun hc => hpath hc.2]
        rfl
      rw [this]
      exact h.single cl' hcl' }

theorem alter_unharmed (hpath : path ≠ Y.log.manifestPath) {cl' : Client}
    (hr : ∀ b, body = some b → ¬ w.Reserved cl' path) :
    Unharmed Y.log cl' w (w.alter cl path body made) where
  reserved := fun {p} hres => by
    refine ⟨hres.1, hres.2.1, ?_⟩
    by_cases heq : p = path
    · subst heq
      cases hbody : body with
      | none => simp [alter]
      | some b => exact absurd hres (hr b hbody)
    · simpa [alter, Function.update_of_ne heq] using hres.2.2
  tally := by
    rw [alter, tally_change made w.live w.state w.commits cl', if_neg fun hc => hpath hc.2]
    exact le_rfl

variable (cl) in
/-- A promised object is created. -/
theorem Sound.create (h : Sound Y g w) {body : Body} (hfiled : Y.log.Filed path)
    (hbody : w.promised path = some body) :
    ∃ w', w'.bucket = w.bucket.change cl path (some body) ∧ Sound Y g w' ∧ Le Y.log w w' ∧
      (∀ cl', Unharmed Y.log cl' w w') ∧ w'.made path = some body := by
  have hpath := ne_manifestPath g hfiled
  have hpath₀ := ne_manifestPath₀ g hfiled
  -- the object is made with this step
  have hle : Le Y.log w
      (w.alter cl path (some body) (Function.update w.made path (some body))) := by
    refine alter_le hpath hpath₀ (fun heq => absurd heq (ne_metadataPath g hfiled)) ?_
    intro p b hp
    by_cases heq : p = path
    · subst heq
      have := h.made hp
      rw [hbody] at this
      simpa using this
    · simpa [Function.update_of_ne heq] using hp
  refine ⟨_, rfl, h.alter hpath hpath₀ hle ?_ ?_ ?_ ?_ (by simp), hle, fun cl' =>
    alter_unharmed hpath fun b _ hr => ?_, by simp [Scene.alter]⟩
  -- what was made was promised
  · intro p b hp
    by_cases heq : p = path
    · subst heq
      simp only [Function.update_self, Option.some.injEq] at hp
      rw [hbody, hp]
    · exact h.made (by simpa [Function.update_of_ne heq] using hp)
  · intro b b' hp hb'
    exact Option.some.inj (hb'.symm.trans (hbody.symm.trans hp))
  -- what is made and not dead is there
  · intro p b hp hdead
    by_cases heq : p = path
    · subst heq
      simpa using hp
    · rw [Function.update_of_ne heq] at hp ⊢
      exact h.present hp hdead
  · intro _
    have hpromised : w.promised path ≠ none := by simp [hbody]
    obtain ⟨-, hfrom, hsettled⟩ := h.filed hpromised
    exact ⟨hsettled, fun _ => hfrom⟩
  -- the name was reserved for somebody only as long as nothing was promised
  · have := hr.2.1
    rw [hbody] at this
    cases this

variable (cl) in
/-- A dead object is deleted. -/
theorem Sound.delete (h : Sound Y g w) (hfiled : Y.log.Filed path) (hdead : w.Dead Y.log path) :
    ∃ w', w'.bucket = w.bucket.change cl path none ∧ Sound Y g w' ∧ Le Y.log w w' ∧
      ∀ cl', Unharmed Y.log cl' w w' := by
  have hpath := ne_manifestPath g hfiled
  have hpath₀ := ne_manifestPath₀ g hfiled
  have hle : Le Y.log w (w.alter cl path none w.made) :=
    alter_le hpath hpath₀ (fun heq => absurd heq (ne_metadataPath g hfiled)) fun hp => hp
  refine ⟨_, rfl, h.alter hpath hpath₀ hle h.made (by simp) ?_ (by simp) (fun _ => hfiled), hle,
    fun cl' => alter_unharmed hpath (by simp)⟩
  intro p b hp hp'
  have hne : p ≠ path := by
    rintro rfl
    exact hp' hdead
  rw [Function.update_of_ne hne]
  exact h.present hp hp'

/-- The topic metadata is created. -/
theorem Sound.createMetadata (h : Sound Y g w) (cl : Client) (body : Body)
    (hnone : w.bucket.objects Y.log.topicMetadataPath = none) :
    ∃ w', w'.bucket = w.bucket.change cl Y.log.topicMetadataPath (some body) ∧ Sound Y g w' ∧
      Le Y.log w w' ∧ ∀ cl', Unharmed Y.log cl' w w' := by
  have hnot : ¬ Y.log.Filed Y.log.topicMetadataPath := Y.log.topicMetadataPath_not_filed g.partition
  have hpath : Y.log.topicMetadataPath ≠ Y.log.manifestPath := (manifestPath_ne_metadataPath g).symm
  have hpath₀ : Y.log.topicMetadataPath ≠ Y.log.engine.manifestPath Y.log.topic 0 :=
    (Y.log.manifestPath_ne_topicMetadataPath le_rfl).symm
  have hle : Le Y.log w (w.alter cl Y.log.topicMetadataPath (some body) w.made) :=
    alter_le hpath hpath₀ (fun _ => hnone) fun hp => hp
  refine ⟨_, rfl, h.alter hpath hpath₀ hle h.made ?_ ?_ ?_ (by simp), hle, fun cl' =>
    alter_unharmed hpath fun b _ hr => hnot (h.reserved_filed hr).1⟩
  · intro b b' hp
    exact absurd (h.filed (by simp [hp])).1 hnot
  · intro p b hp hdead
    have hne : p ≠ Y.log.topicMetadataPath := by
      rintro rfl
      exact hnot (h.made_filed hp)
    rw [Function.update_of_ne hne]
    exact h.present hp hdead
  · intro _
    exact ⟨fun id hid => absurd (Named.filed _ ⟨id, hid⟩) hnot, fun hf => absurd hf hnot⟩

/-- A new root is published, which stands for `v` and reaches `live`. -/
def publish (log : PartitionLog) (w : Scene Client) (cl : Client) (root : Root)
    (live : List String) (v : LogState) (new : List (List Record × Int)) : Scene Client :=
  { w with
    bucket := w.bucket.change cl log.manifestPath (some (.manifest (.indexed root)))
    live := live
    state := v
    commits := w.commits ++ new }

section Publish

variable {root : Root} {live : List String} {v : LogState} {new : List (List Record × Int)}

theorem publish_manifest :
    (w.publish Y.log cl root live v new).manifest Y.log = .indexed root := by
  simp [manifest, manifestIn, publish, manifestOf]

theorem publish_revision :
    (w.publish Y.log cl root live v new).revision Y.log = root.revision := by
  rw [revision, publish_manifest]
  rfl

theorem publish_le (g : Genesis Y.log) (hrevision : w.revision Y.log < root.revision)
    (hlive : ∀ o ∈ live, o ∈ w.live ∨ w.Settled Y.log o ∧ w.rank o = w.revision Y.log) :
    Le Y.log w (w.publish Y.log cl root live v new) where
  issued := subset_rfl
  made := fun h => h
  promised := fun h => h
  owner := fun _ => rfl
  head := .inr (by rw [publish_revision]; exact hrevision)
  dead := fun {path} hd => by
    refine ⟨hd.1, ?_, fun hmem => ?_⟩
    · rw [publish_revision]
      exact hd.2.1.trans hrevision
    · rcases hlive path hmem with hl | ⟨-, hrank⟩
      · exact hd.2.2 hl
      · exact hd.2.1.ne hrank
  metadata := fun {b} hb => by
    simpa [publish, Function.update_of_ne (manifestPath_ne_metadataPath g).symm] using hb
  manifest₀ := fun hb => by
    by_cases heq : Y.log.engine.manifestPath Y.log.topic 0 = Y.log.manifestPath
    · simp [publish, heq]
    · simpa [publish, Function.update_of_ne heq] using hb
  history := List.prefix_append _ _
  moments := moments_change _

theorem publish_reserved (h : Sound Y g w) {cl' : Client} {p : String} (hr : w.Reserved cl' p) :
    (w.publish Y.log cl root live v new).Reserved cl' p := by
  have hne := ne_manifestPath g (h.reserved_filed hr).1
  exact ⟨hr.1, hr.2.1, by simpa [publish, Function.update_of_ne hne] using hr.2.2⟩

open Classical in
theorem publish_tally (cl' : Client) : (w.publish Y.log cl root live v new).tally Y.log cl' =
    w.tally Y.log cl' + if cl = cl' then 1 else 0 := by
  rw [publish, tally_change w.made live v (w.commits ++ new) cl']
  simp

/-- **Publication**: the manifest is replaced by a root that stands for a later log. What the
root reaches was reached before, or was made for this change. -/
theorem Sound.publish (h : Sound Y g w) (haccepted : Y.log.Accepted (.indexed root))
    (hcoherent : Y.log.Coherent w.made (.indexed root) live v)
    (hlive : ∀ o ∈ live, o ∈ w.live ∨ w.Settled Y.log o ∧ w.rank o = w.revision Y.log)
    (hadvance : Advance Y cl w.made (w.manifest Y.log) w.state root v new)
    (hsingle : Single Y cl → w.tally Y.log cl = 0) :
    Sound Y g (w.publish Y.log cl root live v new) := by
  have hle : Le Y.log w (w.publish Y.log cl root live v new) :=
    publish_le g hadvance.revision_lt hlive
  have hobjects : ∀ {p}, p ≠ Y.log.manifestPath →
      (w.publish Y.log cl root live v new).bucket.objects p = w.bucket.objects p := by
    intro p hp
    simp [Scene.publish, Function.update_of_ne hp]
  have hself : (w.publish Y.log cl root live v new).bucket.objects Y.log.manifestPath =
      some (.manifest (.indexed root)) := by simp [Scene.publish]
  have hpresent : ∀ {p b}, w.made p = some b →
      ¬ (w.publish Y.log cl root live v new).Dead Y.log p →
      (w.publish Y.log cl root live v new).bucket.objects p = some b := by
    intro p b hp hdead
    rw [hobjects (ne_manifestPath g (h.made_filed hp))]
    exact h.present hp fun hd => hdead (hle.dead hd)
  -- what the root reaches is in the bucket
  have hreached : ∀ o ∈ live,
      (w.publish Y.log cl root live v new).bucket.objects o = w.made o := by
    intro o ho
    obtain ⟨body, hbody⟩ := Option.ne_none_iff_exists'.mp (hcoherent.ne_none ho)
    rw [hbody, hpresent hbody fun hdead => hdead.2.2 ho]
  exact {
    order := fun b hb => by
      rw [hself] at hb
      cases hb
      exact ⟨_, rfl, haccepted⟩
    order₀ := fun b hb => by
      by_cases hzero : Y.log.partition = 0
      · have heq : ({ Y.log with partition := 0 } : PartitionLog) = Y.log := by rw [← hzero]
        rw [heq] at hb ⊢
        rw [hself] at hb
        cases hb
        exact ⟨_, rfl, haccepted⟩
      · have hne : PartitionLog.manifestPath { Y.log with partition := 0 } ≠ Y.log.manifestPath :=
          fun heq => hzero (partition_inj le_rfl g.partition heq).1.symm
        rw [hobjects hne] at hb
        exact h.order₀ b hb
    coherent := publish_manifest (Y := Y) ▸ hcoherent
    filed := h.filed
    made := h.made
    agrees := fun {p b b'} hp ho => by
      have hp' : w.promised p = some b := hp
      rw [hobjects (ne_manifestPath g (h.filed (by simp [hp'])).1)] at ho
      exact h.agrees hp' ho
    present := hpresent
    held := fun {p b} hh => by
      rcases Bucket.held_change hh with hh | ⟨-, rfl⟩
      · exact h.held hh
      · have hnot : ¬ Y.log.Filed Y.log.manifestPath :=
          Y.log.manifestPath_not_filed g.partition g.partition
        exact ⟨fun id hid => absurd (Named.filed _ ⟨id, hid⟩) hnot, fun hf => absurd hf hnot⟩
    owner := h.owner
    rank_le := fun p => (h.rank_le p).trans hle.revision
    inFlight := fun req hreq => (h.inFlight req hreq).later hle
    deletions := fun e he hnone => by
      rcases List.mem_append.mp he with he | he
      · exact h.deletions e he hnone
      · rw [List.mem_singleton] at he
        subst he
        cases hnone
    chronicle := by
      refine .publish h.chronicle rfl rfl h.coherent_bucket
        (hcoherent.mono fun o ho => hreached o ho)
        (hadvance.mono fun s hs => hreached _ (hcoherent.object_mem hs))
    single := fun cl' hcl' => by
      rw [publish_tally]
      split
      · rename_i heq
        rw [← heq] at hcl' ⊢
        rw [hsingle hcl']
      · exact h.single cl' hcl' }

open Classical in
/-- A ticket can be used as long as the manifest is the one it was made for. -/
theorem Sound.redeem (h : Sound Y g w) {base : Option Body} (ticket : w.Ticket Y cl base root)
    (hbase : w.head Y.log = base) (hsingle : Single Y cl → w.tally Y.log cl = 0) :
    ∃ w', w'.bucket = w.bucket.change cl Y.log.manifestPath (some (.manifest (.indexed root))) ∧
      Sound Y g w' ∧ Le Y.log w w' ∧ ∀ cl', (∀ {p}, w.Reserved cl' p → w'.Reserved cl' p) ∧
        w'.tally Y.log cl' = w.tally Y.log cl' + if cl = cl' then 1 else 0 := by
  subst hbase
  obtain ⟨haccepted, live₀, v₀, live, v, new, hbase, hroot, hlive, hadvance⟩ := ticket
  obtain ⟨rfl, rfl⟩ := h.coherent.unique hbase
  exact ⟨_, rfl, h.publish haccepted hroot hlive hadvance hsingle,
    publish_le g hadvance.revision_lt hlive, fun cl' => ⟨publish_reserved h, publish_tally cl'⟩⟩

end Publish

/-! ## Requests that arrive late -/

theorem admits_modeOf {base : Option Body} :
    w.bucket.Admits Y.log.manifestPath (modeOf base) ↔ w.head Y.log = base := by
  cases base <;> rfl

/-- **Deliveries are harmless**: a request that was under way and arrives leads to a later
world, and harms nobody. -/
theorem Sound.deliver (h : Sound Y g w) {b : Bucket Client Body} (hb : w.bucket.Delivered b) :
    ∃ w', w'.bucket = b ∧ Sound Y g w' ∧ Le Y.log w w' ∧ ∀ cl, Unharmed Y.log cl w w' := by
  -- the request is dropped, or takes effect as it would have at once
  cases hb with
  | refused heq =>
    obtain ⟨hsound, -, hunharmed⟩ := h.drop heq
    exact ⟨_, rfl, hsound, reroute_le, fun cl => (hunharmed cl).1⟩
  -- a late write: of a new object, of the manifest, or of the metadata
  | @put cl path body mode l₁ l₂ heq hadm =>
    obtain ⟨hsound, hreq, hunharmed⟩ := h.drop heq
    have hle : Le Y.log w (w.reroute (l₁ ++ l₂)) := reroute_le
    cases hreq with
    | create hpath hbody =>
      obtain ⟨w', hw', hsound', hle', hunharmed', -⟩ := hsound.create cl hpath hbody
      exact ⟨w', hw', hsound', hle.trans hle', fun cl' => (hunharmed cl').1.trans (hunharmed' cl')⟩
    -- its ticket is still good, and is used up
    | @publish _ base root ticket =>
      have htally : ∀ cl', cl = cl' →
          (w.reroute (l₁ ++ l₂)).tally Y.log cl' + 1 = w.tally Y.log cl' := by
        rintro _ rfl
        exact (hunharmed cl).2 ⟨rfl, rfl⟩
      obtain ⟨w', hw', hsound', hle', hmine⟩ := hsound.redeem (ticket.later hle)
        (admits_modeOf.mp hadm) fun hcl => by
          have := htally cl rfl
          have := h.single cl hcl
          omega
      refine ⟨w', hw', hsound', hle.trans hle',
        fun cl' => ⟨fun hr => (hmine cl').1 ((hunharmed cl').1.reserved hr), ?_⟩⟩
      rw [(hmine cl').2]
      split
      · rename_i heq
        exact (htally cl' heq).le
      · exact (hunharmed cl').1.tally
    | metadata =>
      obtain ⟨w', hw', hsound', hle', hunharmed'⟩ := hsound.createMetadata cl body hadm
      exact ⟨w', hw', hsound', hle.trans hle', fun cl' => (hunharmed cl').1.trans (hunharmed' cl')⟩
  -- a late deletion finds the object dead, as it was
  | @delete cl path l₁ l₂ heq =>
    obtain ⟨hsound, hreq, hunharmed⟩ := h.drop heq
    have hle : Le Y.log w (w.reroute (l₁ ++ l₂)) := reroute_le
    cases hreq with
    | delete hpath hdead =>
      obtain ⟨w', hw', hsound', hle', hunharmed'⟩ := hsound.delete cl hpath (hle.dead hdead)
      exact ⟨w', hw', hsound', hle.trans hle', fun cl' => (hunharmed cl').1.trans (hunharmed' cl')⟩

end Change

end Scene

end Walstream.Log
