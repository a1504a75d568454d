/-
Restoring a namespace from its log.  Whatever call is made, and whether it
succeeds, the edits written so far rebuild a namespace that is alike.
-/
import QuotaTree.Proofs.Replay.Requests

namespace QuotaTree

def Call.paths : Call → List String
  | .mkdirs path _ => [path]
  | .create path _ => [path]
  | .createSymlink _ link _ _ => [link]
  | .addBlock path _ _ => [path]
  | .abandonBlock path _ _ => [path]
  | .complete path _ _ => [path]
  | .append path _ => [path]
  | .writeInline path _ _ => [path]
  | .truncate path _ => [path]
  | .delete path _ => [path]
  | .rename source destination => [source, destination]
  | .setQuota path _ _ => [path]
  | .setTypeQuota path _ _ => [path]
  | .setStoragePolicy path _ => [path]
  | .setReplication path _ => [path]
  | .mergeUpdates => []
  | .recount => []
  | .query _ => []

namespace Namespace

variable {ns ns' start last : Namespace}

theorem applyAll_append_eq_ok {edits more : List Edit} {done : Unit} :
    applyAll (edits ++ more) ns = .ok done last ↔
      ∃ mid, applyAll edits ns = .ok () mid ∧
        applyAll more mid = .ok () last := by
  induction edits generalizing ns with
  | nil =>
    constructor
    · exact fun h => ⟨ns, rfl, h⟩
    · rintro ⟨_, hnone, h⟩
      cases hnone
      exact h
  | cons edit rest ih =>
    simp only [List.cons_append, applyAll, Outcome.bind_eq_ok, ih]
    constructor
    · rintro ⟨_, mid, hedit, later, hrest, hmore⟩
      exact ⟨later, ⟨⟨⟩, mid, hedit, hrest⟩, hmore⟩
    · rintro ⟨later, ⟨_, mid, hedit, hrest⟩, hmore⟩
      exact ⟨⟨⟩, mid, hedit, later, hrest, hmore⟩

/-- The edits that have been written, made again where the log starts, lead to a
namespace that is alike. -/
def Restorable (ns start : Namespace) : Prop :=
  ∃ p rebuilt, applyAll ns.edits start = .ok () rebuilt ∧ ns.Alike p rebuilt

theorem sound_of_applyAll {edits : List Edit} {done : Unit}
    (sound : start.Sound) (h : applyAll edits start = .ok done last) :
    last.Sound := by
  have hsound := sustaining_applyAll edits start sound
  rw [h] at hsound
  exact hsound

namespace Restorable

variable (restorable : ns.Restorable start) (sound : ns.Sound)
  (sound' : start.Sound)

include restorable sound sound'

theorem resembling (resembles : ns.Resembles ns') : ns'.Restorable start := by
  obtain ⟨p, rebuilt, happly, alike⟩ := restorable
  obtain ⟨q, alike'⟩ :=
    alike.resembling sound (sound_of_applyAll sound' happly) resembles
  exact ⟨q, rebuilt, by rw [resembles.edits, happly], alike'⟩

/-- One more edit has been written, unless nothing has happened. -/
theorem extended (edit : Edit)
    (traced : ∀ p rebuilt, ns.Alike p rebuilt → rebuilt.Sound →
      ns' = ns ∨ ∃ rebuilt', apply edit rebuilt = .ok () rebuilt' ∧
      ns'.Alike p rebuilt' ∧
        ns'.edits = ns.edits ++ [edit]) :
    ns'.Restorable start := by
  obtain ⟨p, rebuilt, happly, alike⟩ := restorable
  rcases traced p rebuilt alike (sound_of_applyAll sound' happly) with
    rfl | ⟨rebuilt', hedit, alike', hedits⟩
  · exact ⟨p, rebuilt, happly, alike⟩
  · refine ⟨p, rebuilt', ?_, alike'⟩
    rw [hedits, applyAll_append_eq_ok]
    exact ⟨rebuilt, happly, (Outcome.bind_of_ok hedit).trans rfl⟩

theorem retraced {edit : Edit} {request : Request Unit} {idle : Unit → Prop}
    (h : request ns = .ok () ns')
    (retraces : ∀ p,
      Retraces ns.config p (fun _ _ => True) idle edit request (apply edit)) :
    ns'.Restorable start :=
  restorable.extended sound sound' edit fun p rebuilt alike hrebuilt => by
    rcases retraces p ns rebuilt alike sound hrebuilt rfl () ns' h with
      ⟨hsame, _⟩ | ⟨_, rebuilt', hedit, _, halike⟩
    · exact .inl hsame
    · exact .inr ⟨rebuilt', hedit, halike⟩

/-- A call that succeeds has written what it did, at the path where it did
it. -/
theorem succeeded {call : Call}
    (plain : ∀ path ∈ call.paths, Path.isReserved path = false)
    (mutation : call.isMutation = true) (h : call.run ns = .ok () ns') :
    ns'.Restorable start := by
  cases call with
  | mkdirs path permission =>
    have plain := plain path List.mem_cons_self
    exact restorable.retraced sound sound' h
      fun _ => retraces_mkdirs plain permission
  | create path options =>
    have plain := plain path List.mem_cons_self
    exact restorable.retraced sound sound' h fun _ =>
      (retraces_create plain options rfl rfl).discarded
  | createSymlink target link permission createParent =>
    have plain := plain link List.mem_cons_self
    exact restorable.retraced sound sound' h fun _ =>
      (retraces_createSymlink plain target permission createParent).discarded
  | addBlock path client targets =>
    obtain ⟨block, hadd⟩ := Outcome.discard_eq_ok.1 h
    obtain ⟨path, home, hadd⟩ :=
      homing_addBlock client targets ns path block ns' sound
        (plain path List.mem_cons_self) hadd
    refine restorable.extended sound sound'
      (.addBlock path client block targets) fun p rebuilt alike sound' => ?_
    exact .inr (alike.addBlock home.plain home.canonical sound sound' hadd)
  | abandonBlock path client block =>
    obtain ⟨dropped, habandon⟩ := Outcome.discard_eq_ok.1 h
    obtain ⟨path, home, habandon⟩ :=
      homing_abandonBlock client block ns path dropped ns' sound
        (plain path List.mem_cons_self) habandon
    exact restorable.retraced sound sound'
      (Outcome.discard_eq_ok.2 ⟨dropped, habandon⟩) fun _ =>
        (retraces_abandonBlock home.plain home.canonical client block).discarded
  | complete path client lastLength =>
    have homing : Homing (Namespace.complete · client lastLength) :=
      .onFile (.completeAt _ _)
    obtain ⟨path, home, h⟩ :=
      homing ns path () ns' sound (plain path List.mem_cons_self) h
    exact restorable.retraced sound sound' h fun _ =>
      retraces_complete home.plain home.canonical client lastLength
  | append path writer =>
    have homing : Homing (Namespace.append · writer) := .onFile (.appendAt _)
    obtain ⟨path, home, h⟩ :=
      homing ns path () ns' sound (plain path List.mem_cons_self) h
    exact restorable.retraced sound sound' h fun _ =>
      retraces_append home.plain home.canonical writer
  | writeInline path client length =>
    obtain ⟨path, home, h⟩ := homing_writeInline client length ns path
      () ns' sound (plain path List.mem_cons_self) h
    exact restorable.retraced sound sound' h fun _ =>
      retraces_writeInline home.plain home.canonical client length
  | truncate path length =>
    obtain ⟨chain, home, ends, h⟩ :=
      truncate_home sound (plain path List.mem_cons_self) h
    exact restorable.extended sound sound' (.truncate chain.path length.toNat)
      fun p rebuilt alike sound' => alike.truncate sound sound' home ends h
  | delete path recursive =>
    have plain := plain path List.mem_cons_self
    exact restorable.retraced sound sound' h fun _ =>
      (retraces_delete plain recursive).discarded
  | rename source destination =>
    have plain' := plain destination (List.mem_cons_of_mem _ List.mem_cons_self)
    have plain := plain source List.mem_cons_self
    exact restorable.retraced sound sound' h fun _ =>
      retraces_rename plain plain'
  | setQuota path inodes bytes =>
    have plain := plain path List.mem_cons_self
    exact restorable.retraced sound sound' h fun _ =>
      retraces_setQuota plain inodes bytes
  | setTypeQuota path type limit =>
    have plain := plain path List.mem_cons_self
    exact restorable.retraced sound sound' h fun _ =>
      retraces_setTypeQuota plain type limit
  | setStoragePolicy path policy =>
    have plain := plain path List.mem_cons_self
    exact restorable.retraced sound sound' h fun _ =>
      retraces_setStoragePolicy plain policy
  | setReplication path replication =>
    have plain := plain path List.mem_cons_self
    exact restorable.retraced sound sound' h fun _ =>
      retraces_setReplication plain replication
  | mergeUpdates => cases mutation
  | recount => cases mutation
  | query query => cases mutation

/-- A call keeps the log in step with the namespace. -/
theorem call (call : Call)
    (plain : ∀ path ∈ call.paths, Path.isReserved path = false) :
    (Outcome.state (call.run ns)).Restorable start := by
  by_cases mutation : call.isMutation = true
  · cases h : call.run ns with
    | ok _ ns' => exact restorable.succeeded sound sound' plain mutation h
    | error error ns' =>
      have untouched := traceless_call mutation ns error ns' sound.locks h
      exact restorable.resembling sound sound' untouched.resembles
  · refine restorable.resembling sound sound' ?_
    cases call with
    | mergeUpdates =>
      exact state_discard mergeUpdates ns ▸ resembles_mergeUpdates sound
    | recount => exact state_discard recount ns ▸ resembles_recount sound
    | query query => exact (watching_query query).resembles sound
    | _ => exact absurd rfl mutation

/-- What one call keeps in step a whole run does. -/
theorem after (calls : List Call)
    (plain : ∀ call ∈ calls, ∀ path ∈ call.paths, Path.isReserved path =
      false) :
    (ns.after (calls.map Call.run)).Restorable start := by
  induction calls generalizing ns with
  | nil => exact restorable
  | cons call rest ih =>
    have hcall :=
      restorable.call sound sound' call (plain call List.mem_cons_self)
    refine ih hcall ((stepping_call call).sustaining ns sound)
      fun other hother => ?_
    exact plain other (List.mem_cons_of_mem _ hother)

end Restorable

def unloaded (ns : Namespace) : Namespace :=
  { ns with imageLoaded := false }

theorem restorable_fresh (config : Config) :
    (fresh config).Restorable (fresh config).unloaded := by
  refine ⟨.same, (fresh config).unloaded, rfl, ?_⟩
  have hblocks (id : Nat) : (fresh config).blocks[id]? = none :=
    Std.ExtTreeMap.getElem?_empty
  exact
    { nodes := Nodes.matches_same _
      fresh := fun _ => rfl
      behind := Nat.le_refl _
      config := rfl
      loaded := rfl
      replaying := rfl
      blocks := fun id => by
        change Option.Rel _ (fresh config).blocks[id]?
          (fresh config).blocks[id]?
        rw [hblocks]
        exact .none
      numbered := fun id hid => by
        rw [hblocks] at hid
        cases hid
      unlogged := rfl }

end Namespace

end QuotaTree
