import Walstream.Log.CheckErrors
import Walstream.Log.Clients

/-!
# Maintenance among worlds

A pass lists names before it loads the manifest that it replaces. A name on the list was drawn
for a revision that the replaced manifest had already reached, so that it is dead as soon as
the new root is published without it. A pass deletes no other names.
-/

namespace Walstream.Log

open Interaction PartitionLog Scene

variable {Client : Type} {Y : Service Client} {g : Genesis Y.log} {cl : Client}
  {C : Company Y g cl} {w w₀ : World Y g} {base : Option Body}

/-! ## Inventory -/

theorem mem_inventory_insert {key : String} {size : Nat} {inventory : Inventory} {entry : String × Nat}
    (h : entry ∈ inventory.insert key size) : entry.1 = key ∨ entry ∈ inventory := by
  induction inventory with
  | nil =>
    obtain rfl : entry = (key, size) := by simpa [Inventory.insert] using h
    exact .inl rfl
  | cons head rest ih =>
    obtain ⟨k, n⟩ := head
    rw [Inventory.insert] at h
    split at h
    · rcases List.mem_cons.mp h with rfl | h
      · exact .inr List.mem_cons_self
      · exact (ih h).imp_right (List.mem_cons_of_mem _)
    · split at h
      · rcases List.mem_cons.mp h with rfl | h
        · exact .inl rfl
        · exact .inr (List.mem_cons_of_mem _ h)
      · rcases List.mem_cons.mp h with rfl | h
        · exact .inl rfl
        · exact .inr h

/-- The inventory takes up names of the right form that were listed. -/
theorem mem_scanListing {log : PartitionLog} {space suffix : String} {maximum : Nat}
    {listed : List (Except StoreError ObjectMeta)} {scanned scanned' : Nat}
    {objects objects' : Inventory}
    (h : log.scanListing space suffix maximum listed scanned objects = .ok (scanned', objects')) :
    ∀ entry ∈ objects', entry ∈ objects ∨ ∃ object : ObjectMeta, .ok object ∈ listed ∧
      entry.1 = object.location ∧ log.crates.namesUuid space suffix object.location = true := by
  induction listed generalizing scanned objects with
  | nil =>
    cases h
    exact fun entry hentry => .inl hentry
  | cons head listed ih =>
    -- a listing that breaks off is an error
    cases head with
    | error e => cases h
    | ok object =>
      rw [scanListing, bind_eq_ok] at h
      obtain ⟨_, -, h⟩ := h
      intro entry hentry
      -- the name was there before, or is this one
      rcases ih h entry hentry with hmem | ⟨object', hobject', hrest⟩
      · split at hmem
        · rename_i hnames
          refine (mem_inventory_insert hmem).symm.imp_right fun hkey => ?_
          exact ⟨object, List.mem_cons_self, hkey, hnames⟩
        · exact .inl hmem
      · exact .inr ⟨object', List.mem_cons_of_mem _ hobject', hrest⟩

/-- The names of the inventory belong to the partition, and are not drawn any more. -/
def Collectable (w : World Y g) (inventory : Inventory) : Prop :=
  ∀ entry ∈ inventory, Y.log.Filed entry.1 ∧ Y.log.crates.pathFrom entry.1 = entry.1 ∧
    w.scene.Settled Y.log entry.1

theorem Collectable.later {w' : World Y g} {inventory : Inventory} (h : Collectable w inventory)
    (hw : w ≤ w') : Collectable w' inventory := by
  have hle : Le Y.log w.scene w'.scene := hw
  exact fun entry hentry => (h entry hentry).imp_right fun h => h.imp_right hle.settled

/-- The names of a directory of this kind belong to the partition. -/
def Files (log : PartitionLog) (directory : String × String) : Prop :=
  ∀ path, log.crates.namesUuid
      (partitionPath log.keyPrefix log.topic log.partition ++ directory.1 ++ "/") directory.2 path =
    true → log.Filed path

theorem files_collected (log : PartitionLog) : ∀ d ∈ collectedDirectories, Files log d := by
  have hspace : ∀ directory : String, partitionPath log.keyPrefix log.topic log.partition ++
      directory ++ "/" = partitionPath log.keyPrefix log.topic log.partition ++ (directory ++ "/") :=
    fun directory => String.append_assoc
  intro d hd path hpath
  rw [hspace] at hpath
  simp only [collectedDirectories, List.mem_cons, List.not_mem_nil, or_false] at hd
  rcases hd with rfl | rfl | rfl
  · exact .inl hpath
  · exact .inr (.inl hpath)
  · exact .inr (.inr hpath)

/-- What is listed is there, or was. -/
theorem ends_list {directory : String} (hat : C.At base w) {F : LogError → World Y g → Prop} :
    C.arena.Ends (Engine.perform (.list directory)) w (fun listed w' => C.At base w' ∧
      ∀ object : ObjectMeta, .ok object ∈ listed →
        ∃ body, w'.bucket.Held object.location body) F := by
  refine ends_perform fun w₁ hw₁ listed s hexec => ?_
  obtain ⟨hlisted, rfl⟩ := hexec
  refine ⟨w₁, Guarantee.refl w₁, rfl, (C.at_frame base).rely hw₁ hat, fun object hobject => ?_⟩
  cases hlisted with
  | snapshot hnodup h =>
    obtain ⟨m, hm, heq⟩ := List.mem_map.mp hobject
    obtain rfl : m = object := Except.ok.inj heq
    obtain ⟨-, body, hbody, -⟩ := (h m).mp hm
    exact ⟨body, .inl hbody⟩
  | unsteady hf h herr =>
    obtain ⟨-, body, hbody, -⟩ := h object hobject
    exact ⟨body, hbody⟩

private theorem inventoryOf_ends (maximum : Nat) {directories : List (String × String)}
    (hfiles : ∀ d ∈ directories, Files Y.log d) {scanned : Nat} {objects : Inventory}
    (hobjects : Collectable w objects) (hat : C.At base w) :
    C.arena.Ends (Y.log.inventoryOf maximum directories scanned objects) w
      (fun inventory w' => C.At base w' ∧ Collectable w' inventory) (fun x _ => ¬ x.Malformed) := by
  induction directories generalizing w scanned objects with
  | nil => exact Arena.ends_pure ⟨hat, hobjects⟩
  | cons directory directories ih =>
    obtain ⟨directory, suffix⟩ := directory
    unfold inventoryOf
    dsimp only
    refine Arena.ends_bind (ends_list hat) ?_
    rintro listed w₁ hle₁ ⟨hat₁, hheld⟩
    refine ends_check_bind (fun out hout => ?_) fun x hx => ?_
    · obtain ⟨scanned', objects'⟩ := out
      refine ih (fun d hd => hfiles d (List.mem_cons_of_mem _ hd)) (fun entry hentry => ?_) hat₁
      -- what was listed is stored, and has its place
      rcases mem_scanListing hout entry hentry with hmem | ⟨object, hobject, hkey, hnames⟩
      · exact hobjects.later hle₁ entry hmem
      · obtain ⟨body, hbody⟩ := hheld object hobject
        have hfiled := hfiles _ List.mem_cons_self _ hnames
        rw [hkey]
        exact ⟨hfiled, (w₁.sound.held hbody).2 hfiled, (w₁.sound.held hbody).1⟩
    · exact scanListing_failsWith (P := fun x => ¬ x.Malformed) Y.log (by simp [LogError.Malformed])
        (by simp [LogError.Malformed]) _ _ _ _ _ x hx

theorem inventory_ends (maximum : Nat) (hat : C.At base w) :
    C.arena.Ends (Y.log.inventory maximum) w
      (fun inventory w' => C.At base w' ∧ Collectable w' inventory) (fun x _ => ¬ x.Malformed) :=
  inventoryOf_ends maximum (files_collected Y.log) (fun _ h => absurd h List.not_mem_nil) hat

/-! ## Deletions -/

/-- A client that does not append may write the manifest again. -/
theorem Company.At.of_idle (hidle : ¬ Single Y cl) (head : C.alone → w.head = base) :
    C.At base w := ⟨fun hsingle => absurd hsingle hidle, head⟩

/-- A dead name is deleted, now or later or not at all. -/
theorem ends_delete {path : String} (hfiled : Y.log.Filed path) (hdead : w.scene.Dead Y.log path)
    (hat : C.At base w) {F : LogError → World Y g → Prop} :
    C.arena.Ends (Engine.perform (.delete path)) w (fun _ w' => C.At base w') F := by
  refine ends_perform fun w₁ hw₁ r s hexec => ?_
  have hat₁ := (C.at_frame base).rely hw₁ hat
  have hle : Le Y.log w.scene w₁.scene := C.le hw₁
  have hgone : ∃ w₂ : World Y g, Guarantee cl w₁ w₂ ∧
      w₂.bucket = w₁.bucket.change cl path none ∧ C.At base w₂ := by
    obtain ⟨sc, hbucket, hsound, hle', hunharmed⟩ := w₁.sound.delete cl hfiled (hle.dead hdead)
    refine ⟨⟨sc, hsound⟩, ⟨hle', fun cl' _ => hunharmed cl'⟩, hbucket,
      (C.at_frame base).step ?_ (hunharmed cl).tally hat₁⟩
    change sc.bucket.objects _ = w₁.bucket.objects _
    rw [hbucket]
    simp [Function.update_of_ne (ne_manifestPath g hfiled).symm]
  have hdeleted : Deleted (Y.faults cl) cl w₁.bucket path r s := hexec
  cases hdeleted with
  | removed _ => exact hgone
  | absent _ _ _ => exact ⟨w₁, Guarantee.refl w₁, rfl, hat₁⟩
  | lost _ => exact ⟨w₁, Guarantee.refl w₁, rfl, hat₁⟩
  | unacknowledged _ => exact hgone
  | delayed _ =>
    have hnot : ∀ cl', ¬ Publishes Y.log cl' (.delete cl path) := fun _ hpub => hpub
    have hsanctioned : w₁.scene.Sanctioned Y (.delete cl path) := .delete hfiled (hle.dead hdead)
    have hsound := w₁.sound.send hsanctioned
      fun cl' _ hpub => absurd hpub (hnot cl')
    exact ⟨⟨_, hsound⟩, ⟨reroute_le, fun cl' _ => send_unharmed (hnot cl')⟩, rfl,
      (C.at_frame base).step (w := w₁) rfl (send_unharmed (hnot cl)).tally hat₁⟩

/-- The removable names that the published root does not reach are deleted. -/
theorem collect_ends {live : LiveGraph} {removable : Inventory} {report : MaintenanceReport}
    (hcollectable : Collectable w removable)
    (hdead : ∀ entry ∈ removable, entry.1 ∉ live.objects → w.scene.Dead Y.log entry.1)
    (hat : C.At base w) :
    C.arena.Ends (Y.log.collect live removable report) w (fun _ w' => C.At base w')
      (fun x _ => ¬ x.Malformed) := by
  -- over the names that are left
  induction removable generalizing w report with
  | nil => exact Arena.ends_pure hat
  | cons entry removable ih =>
    obtain ⟨object, size⟩ := entry
    have hrest : ∀ {w' report'}, w ≤ w' → C.At base w' → C.arena.Ends
        (Y.log.collect live removable report') w' (fun _ w' => C.At base w')
        (fun x _ => ¬ x.Malformed) := by
      intro w' report' hle hat'
      have hle' : Le Y.log w.scene w'.scene := hle
      exact ih (fun entry hentry => hcollectable.later hle entry (List.mem_cons_of_mem _ hentry))
        (fun entry hentry hnot => hle'.dead (hdead entry (List.mem_cons_of_mem _ hentry) hnot)) hat'
    unfold collect
    -- a name that the root reaches is kept
    split
    · exact hrest le_rfl hat
    rename_i hnot
    -- the name is one of this partition and below its directory
    obtain ⟨hfiled, hfrom, -⟩ := hcollectable _ List.mem_cons_self
    rw [hfrom]
    refine Arena.ends_bind (ends_delete hfiled (hdead _ List.mem_cons_self hnot) hat) ?_
    rintro (e | _) w' hle hat'
    -- an object that is gone already is no failure
    · cases e with
      | notFound => exact hrest hle hat'
      | _ => exact Arena.ends_throw (by simp [incomplete, LogError.Malformed])
    · exact hrest hle hat'

/-! ## One pass -/

/-- What a pass has done that came to its end: since the bucket was `s`, the client has replaced a
manifest, which stood for `v`, by a root that stands for the suffix to be retained. -/
structure Maintained (w : World Y g) (cl : Client) (s : Bucket Client Body)
    (options : MaintenanceOptions) (now : Nat) (expected : LogState → Prop) (alone : Prop) : Prop where
  outcome : ∃ base v k root live, expected v ∧ Landed Y g cl s w.bucket base v root ∧
    Retains options (adoptionTime (manifestOf base) now) now v.segments k ∧
    Y.log.Coherent w.scene.made (.indexed root) live (v.retain k) ∧
    (alone → w.head = some (.manifest (.indexed root)))

variable {options : MaintenanceOptions} {now : Nat}

/-- After the publication: the root is traced, and what it does not reach is deleted. -/
theorem collectPublished_ends (hidle : ¬ Single Y cl) {root : Root} {plan : RetentionPlan}
    {inventory : Inventory} (hhead : w.head = some (.manifest (.indexed root)))
    (hcollectable : Collectable w inventory) (hremovable : ∀ entry ∈ plan.removable, entry ∈ inventory)
    (hrank : ∀ entry ∈ inventory, w.scene.rank entry.1 < w.revision) (maximum : Nat) :
    C.arena.Ends (Y.log.collectPublished root (.manifest (.indexed root)) plan maximum) w
      (fun pass w' => C.At (some (.manifest (.indexed root))) w' ∧
        ∀ published, pass = .retry published → ¬ C.alone)
      (fun x _ => ¬ x.Malformed) := by
  have hat : C.At (some (.manifest (.indexed root))) w := .of_idle hidle fun _ => hhead
  unfold collectPublished
  -- the trace reads the root that was published
  have hdraft := (rep_grounds (C.at_frame _) w.head w.scene.live).ends hat.begins
    (traceManifest_drafts (F := fun x => x = .maintenanceBudget maximum) g.topic
      (show LogError.maintenanceBudget maximum = _ from rfl) w.notes_coherent)
  rw [hhead] at hdraft
  refine Arena.ends_bind (Arena.ends_attempt hdraft) ?_
  -- the trace fails, and a look at the manifest decides whether to try again
  rintro (x | live) w₁ hle₁ hout
  · have hat₁ : C.At (some (.manifest (.indexed root))) w₁ ∧ ¬ x.Malformed := by
      rcases hout with ⟨rfl, n', hrep⟩ | ⟨cause, hreports, hexcuse | hexcuse⟩
      · exact ⟨hrep.frame, by simp [LogError.Malformed]⟩
      · exact ⟨hexcuse.1, hreports.not_malformed⟩
      · exact ⟨hexcuse.1, hreports.not_malformed⟩
    refine Arena.ends_bind (Arena.ends_attempt (Arena.ends_mono (staleMissing_ends hat₁.1)
      (fun _ _ _ h => h) (fun x _ _ h => h.1))) ?_
    rintro (x' | stale) w₂ - hstale
    · refine Arena.ends_throw ?_
      obtain rfl : x' = .objectStore .generic := hstale
      simp [incomplete, LogError.Malformed]
    · obtain ⟨hat₂, hreplaced, -⟩ := hstale
      -- somebody else has published, so that the pass is repeated
      cases stale with
      | true => exact Arena.ends_pure ⟨hat₂, fun _ _ halone => hreplaced rfl (hat₂.head halone)⟩
      | false => exact Arena.ends_throw hat₁.2
  · obtain ⟨n', -, hrep, -, hlive, -⟩ := hout
    -- what the trace has found alive is what the root reaches
    have hle : Le Y.log w.scene w₁.scene := hle₁
    refine Arena.ends_bind (collect_ends
      (fun entry hentry => hcollectable.later hle₁ entry (hremovable entry hentry))
      (fun entry hentry hnot => ?_) hrep.frame) fun report w₂ _ hat₂ =>
        Arena.ends_pure ⟨hat₂, fun _ hretry => by cases hretry⟩
    -- a removable object is older than the root
    have hmem := hremovable entry hentry
    exact hle.dead ⟨(hcollectable entry hmem).2.2, hrank entry hmem,
      fun hreached => hnot ((hlive _).mpr hreached)⟩

theorem Maintained.later {w w' : World Y g} {s : Bucket Client Body} {expected : LogState → Prop}
    {alone : Prop} (h : Maintained w cl s options now expected alone) (hw : w ≤ w')
    (hhead : alone → w'.head = w.head) : Maintained w' cl s options now expected alone := by
  have hle : Le Y.log w.scene w'.scene := hw
  obtain ⟨base, v, k, root, live, hexpected, hlanded, hretains, hcoherent, halone⟩ := h.outcome
  exact ⟨base, v, k, root, live, hexpected, hlanded.later hle.history, hretains,
    hcoherent.extend fun _ _ => hle.made, fun ha => (hhead ha).trans (halone ha)⟩

/-- One pass: it comes to its end after a publication, or is to be repeated. -/
theorem maintainPass_ends (hop : Y.op cl = .maintain options (some now)) (hw₀ : w₀ ≤ w)
    (hat : C.At w₀.head w) :
    C.arena.Ends (Y.log.maintainPass options now) w
      (fun pass w' => match pass with
        | .finished _ => options.apply = true → Maintained w' cl w₀.bucket options now
            (fun v => C.alone → v = w₀.scene.state) C.alone
        | .retry _ => C.At w₀.head w')
      (fun x _ => Blameless Y.log x) := by
  have hidle : ¬ Single Y cl := by
    rintro ⟨-, defaultPartitions, clock, batches, happend⟩
    rw [hop] at happend
    cases happend
  have hgeneric : ¬ (LogError.objectStore .generic).Malformed := by simp [LogError.Malformed]
  unfold maintainPass
  -- the inventory comes before the manifest, so that what it lists is older
  refine Arena.ends_bind (Arena.ends_mono (inventory_ends options.maxObjects hat) (fun _ _ _ h => h)
    fun _ _ _ h => blameless_of_not_malformed h) ?_
  rintro inventory w₁ hle₁ ⟨hat₁, hcollectable⟩
  refine Arena.ends_bind (Arena.ends_mono (loadManifest_ends hat₁) (fun _ _ _ h => h) ?_) ?_
  · rintro x _ - ⟨rfl, -⟩
    exact blameless_of_not_malformed hgeneric
  rintro loaded w₂ hle₂ ⟨hat₂, rfl⟩
  have hw₂ : w₀ ≤ w₂ := le_trans hw₀ (le_trans hle₁ hle₂)
  have hexpected : C.alone → w₂.scene.state = w₀.scene.state :=
    fun halone => World.state_eq hw₂ (hat₂.head halone)
  rw [snapshotOf_getD]
  -- the whole manifest is traced
  have htrace := (rep_grounds (C.at_frame w₀.head) w₂.head w₂.scene.live).ends hat₂.begins
    (traceManifest_drafts (F := fun x => x = .maintenanceBudget options.maxObjects) g.topic
      (show LogError.maintenanceBudget options.maxObjects = _ from rfl) w₂.notes_coherent)
  refine Arena.ends_bind (Arena.ends_attempt htrace) ?_
  rintro (x | graph) w₃ hle₃ hout
  -- an object is missing: somebody has replaced the manifest, or the pass fails
  · have hat₃ : C.At w₀.head w₃ ∧ ¬ x.Malformed := by
      rcases hout with ⟨rfl, n', hrep⟩ | ⟨cause, hreports, hexcuse | hexcuse⟩
      · exact ⟨hrep.frame, by simp [LogError.Malformed]⟩
      · exact ⟨hexcuse.1, hreports.not_malformed⟩
      · exact ⟨hexcuse.1, hreports.not_malformed⟩
    refine Arena.ends_bind (Arena.ends_mono (staleMissing_ends hat₃.1) (fun _ _ _ h => h) ?_) ?_
    · rintro x _ - ⟨rfl, -⟩
      exact blameless_of_not_malformed hgeneric
    rintro stale w₄ - ⟨hat₄, -⟩
    cases stale with
    | true => exact Arena.ends_pure hat₄
    | false => exact Arena.ends_throw (blameless_of_not_malformed hat₃.2)
  · obtain ⟨n', hn', hrep, hsegments, -, rfl⟩ := hout
    refine ends_check_bind (fun plan hplan => ?_) fun x hx => ?_
    · obtain ⟨k, hplanned⟩ := planRetention_eq_ok hplan
      -- without `apply` nothing is published
      split
      · rename_i hpreview
        exact Arena.ends_pure fun happly => absurd happly (by simp [hpreview])
      rename_i happly
      -- the root is prepared
      refine Arena.ends_bind (Arena.ends_mono
        ((rep_grounds (C.at_frame w₀.head) w₂.head w₂.scene.live).ends hrep
          (maintenanceRoot_drafts g.topic (fun x hx => hx) w₂.notes_coherent hsegments hplanned))
        (fun _ _ _ h => h) ?_) ?_
      · rintro x _ - (⟨hexcused, -⟩ | ⟨cause, hreports, -⟩)
        · exact fun hfits => (hexcused hfits).1
        · exact blameless_of_not_malformed hreports.not_malformed
      rintro root w₄ hle₄ ⟨n', hn', hrep', live', hrebuilt⟩
      have hretains : Retains options (adoptionTime (manifestOf w₂.head) now) now
          w₂.scene.state.segments k := hsegments ▸ hplanned.retains
      have ticket : w₄.scene.Ticket Y cl w₂.head root :=
        hrep'.ticket hn' w₂.notes_coherent
          (accepted_of_valid (validateRoot_eq_ok.mpr hrebuilt.coherent.valid) hrebuilt.size.not_gt)
          hrebuilt.coherent hrebuilt.objects
          (.retain hop (by simpa using happly) hretains hrebuilt.renewed)
      have hle : Le Y.log w₂.scene w₄.scene := le_trans hle₃ hle₄
      have hcoherent : Y.log.Coherent n'.content (.indexed root) live' (w₂.scene.state.retain k) :=
        hrebuilt.coherent
      rw [mode_snapshotOf]
      refine Arena.ends_bind (publish_ends (le_trans hw₂ hle) hrep'.frame
        (w₂.sound.coherent.extend fun _ _ => hle.made) ticket) ?_
      rintro (e | version) w₅ hle₅ hput
      -- refused or failed
      · rcases hput with ⟨rfl, -⟩ | ⟨he, hat₅⟩
        · exact Arena.ends_throw (blameless_of_not_malformed (by simp [incomplete, LogError.Malformed]))
        · cases e with
          | notFound | generic => exact he.elim
          | precondition | alreadyExists => exact Arena.ends_pure hat₅
      -- published: what the root does not reach is deleted
      · obtain ⟨rfl, hlanded, hhead⟩ := hput
        have hle' : Le Y.log w₂.scene w₅.scene := le_trans hle hle₅
        have hcollectable₂ := hcollectable.later hle₂
        -- all that was listed is older than the root
        have hrank : ∀ entry ∈ inventory, w₅.scene.rank entry.1 < w₅.revision := by
          intro entry hentry
          rw [hle'.rank (hcollectable₂ entry hentry).2.2, w₅.revision_of_head hhead]
          refine (w₂.sound.rank_le entry.1).trans_lt ?_
          have hrevision : root.revision = (manifestOf w₂.head).revision + 1 :=
            hrebuilt.renewed.revision
          change (manifestOf w₂.head).revision < root.revision
          omega
        have hmade : ∀ o body, n'.content o = some body → w₅.scene.made o = some body := by
          have hle₅ : Le Y.log w₄.scene w₅.scene := hle₅
          exact fun o body ho => hle₅.made (hrep'.content ho).1
        refine Arena.ends_mono (collectPublished_ends hidle hhead (hcollectable₂.later hle')
          hplanned.removable hrank options.maxObjects) ?_ fun _ _ _ h => blameless_of_not_malformed h
        rintro (report | published) w₆ hle₆ ⟨hat₆, hretry⟩
        · have hle₆ : Le Y.log w₅.scene w₆.scene := hle₆
          exact fun _ => ⟨w₂.head, w₂.scene.state, k, root, live', hexpected,
            hlanded.later hle₆.history, hretains,
            (hcoherent.extend hmade).extend fun _ _ => hle₆.made, hat₆.head⟩
        · exact .of_idle hidle fun halone => absurd halone (hretry _ rfl)
    -- the plan exceeds the budget
    · rw [planRetention_eq_error hx]
      exact blameless_of_not_malformed (by simp [LogError.Malformed])

/-- The loop: it ends as its last pass does. -/
theorem maintainAttempts_ends (hop : Y.op cl = .maintain options (some now)) (attempts : Nat)
    (published : Option MaintenanceReport) (hw₀ : w₀ ≤ w) (hat : C.At w₀.head w) :
    C.arena.Ends (Y.log.maintainAttempts options now attempts published) w
      (fun out w' => match out.1 with
        | .ok _ => options.apply = true → Maintained w' cl w₀.bucket options now
            (fun v => C.alone → v = w₀.scene.state) C.alone
        | .error x => Blameless Y.log x)
      (fun _ _ => False) := by
  induction attempts generalizing w published with
  | zero =>
    exact Arena.ends_pure (blameless_of_not_malformed (by simp [LogError.Malformed]))
  | succ attempts ih =>
    unfold maintainAttempts
    refine Arena.ends_bind (Arena.ends_attempt (maintainPass_ends hop hw₀ hat)) ?_
    rintro (x | report | published') w' hle hpass
    · exact Arena.ends_pure hpass
    · exact Arena.ends_pure hpass
    · exact ih _ (le_trans hw₀ hle) hpass

/-- **Maintenance keeps its promise**: a run that applies its limits and succeeds has replaced a
manifest by a root that stands for the suffix to be retained. -/
theorem maintain_ends {clock : Option Nat} (hop : Y.op cl = .maintain options clock)
    (hat : C.At w.head w) :
    C.arena.Ends (Y.log.maintain options clock) w
      (fun _ w' => options.apply = true → ∃ now, clock = some now ∧ Maintained w' cl w.bucket options
        now (fun v => C.alone → v = w.scene.state) C.alone)
      (fun x _ => clock ≠ none → Blameless Y.log x) := by
  -- the checks of the options and the topic come before anything is read
  unfold maintain
  refine ends_check_bind (fun _ _ => ?_) fun x hx _ => ?_
  · refine ends_check_bind (fun _ _ => ?_) fun x hx => by cases g.topic.symm.trans hx
    refine ends_check_bind (fun _ _ => ?_) fun x hx _ => ?_
    -- the partition exists, and the clock is read
    · refine Arena.ends_bind (Arena.ends_mono (requirePartition_ends hat) (fun _ _ _ h => h)
        fun x _ _ hx _ => blameless_of_not_malformed hx.1) ?_
      rintro _ w₁ hle₁ hat₁
      refine ends_check_bind (fun now hclock => ?_) fun x hx hsome => ?_
      · obtain rfl : clock = some now := okOr_eq_ok.mp hclock
        unfold maintainAt
        refine Arena.ends_bind (Arena.ends_mono (maintainAttempts_ends hop _ _ hle₁ hat₁)
          (fun _ _ _ h => h) fun _ _ _ h => h.elim) ?_
        rintro ⟨r, published⟩ w₂ - hout
        -- the attempts have ended in one of four ways
        split <;> rename_i heq <;> cases heq
        · exact Arena.ends_throw fun _ => hout
        · exact Arena.ends_throw fun _ => hout
        · exact Arena.ends_throw fun _ => hout
        · exact Arena.ends_pure fun happly => ⟨now, rfl, hout happly⟩
      · exact absurd (okOr_eq_error.mp hx).1 hsome
    -- the options or the partition are refused
    · unfold validatePartition at hx
      split at hx <;> cases hx
      exact blameless_of_not_malformed (by simp [LogError.Malformed])
  · unfold MaintenanceOptions.validate at hx
    obtain ⟨-, rfl⟩ := rejectIf_eq_error.mp hx
    exact blameless_of_not_malformed (by simp [LogError.Malformed])

end Walstream.Log
