/-
Numbers that are given out.  An identity that was allocated, even in vain, is
never allocated again, and without an inode it stays without one; a block that
is begun has greater numbers than all that were given out or named before it,
whatever became of those.
-/
import QuotaTree.Proofs.Recovery
import QuotaTree.Proofs.Request.Lasting
import QuotaTree.Proofs.Request.Units
import QuotaTree.Proofs.Usage.Persist

namespace QuotaTree

open Nodes

section Dead

variable {keeps mends : Bool} {books after : Books} {id : InodeId}

/-- A change brings to life only identities that had not been used up. -/
theorem Change.dead (change : Change keeps books after)
    (used : id.val < books.next.val) (dead : books.nodes id = none) :
    after.nodes id = none := by
  have notLive {old : Inode} (live : books.nodes id = some old) : False := by
    rw [dead] at live
    cases live
  rw [Option.eq_none_iff_forall_ne_some]
  intro inode live
  cases change with
  | skip => exact notLive live
  | adjust recast =>
    obtain ⟨_, hold, _⟩ := recast.alike.symm.live live
    exact notLive hold
  | link ins _ _ _ unused =>
    rcases ins.live live with ⟨rfl, _⟩ | ⟨_, _, hold, _⟩
    · exact Nat.not_lt.2 unused used
    · exact notLive hold
  | prune pruning =>
    obtain ⟨_, _, hold, _⟩ := pruning.live live
    exact notLive hold
  | relocate rel =>
    obtain ⟨_, hold, _⟩ := rel.live_old live
    exact notLive hold

theorem Refile.dead (refile : Refile keeps books after)
    (dead : books.nodes id = none) : after.nodes id = none := by
  obtain ⟨live, content, _, _⟩ := refile
  exact (alike_set live (Refile.alike_withFile content _)).dead dead

theorem Effect.dead (effect : Effect keeps mends books after)
    (used : id.val < books.next.val) (dead : books.nodes id = none) :
    after.nodes id = none := by
  cases effect with
  | changes changes =>
    have hboth : id.val < after.next.val ∧ after.nodes id = none := by
      induction changes with
      | refl => exact ⟨used, dead⟩
      | tail _ change ih =>
        exact ⟨ih.1.trans_le change.next_le, change.dead ih.1 ih.2⟩
    exact hboth.2
  | refile refile => exact refile.dead dead
  | mended _ mended =>
    induction mended with
    | refl => exact dead
    | tail _ mend ih => exact mend.recast.alike.dead ih

end Dead

/-- An identity that has been used up, and has no inode. -/
def InodeTable.Spent (table : InodeTable) (id : InodeId) : Prop :=
  id.val < table.next.val ∧ table.find? id = none

/-- The numbers of a block are less than those of another. -/
def Block.Precedes (earlier later : Block) : Prop :=
  earlier.id < later.id ∧ earlier.stamp < later.stamp

namespace Namespace

/-- The edits of a log that are tried when it is made again: all up to the first
that fails. -/
def tried : List Edit → Namespace → List Edit
  | [], _ => []
  | edit :: rest, ns =>
    match apply edit ns with
    | .ok _ next => edit :: tried rest next
    | .error _ _ => [edit]

def drawn (ns : Namespace) : List Block :=
  match nextBlockOut ns with
  | .ok block _ => [block]
  | .error _ _ => []

/-- The blocks that an event is given or names, whether it succeeds or fails. -/
def blocksIn (ns : Namespace) : Event → List Block
  | .call (.addBlock ..) => ns.drawn
  | .apply edit => edit.begun?.toList
  | .replay edits => (tried edits ns.unloaded).filterMap Edit.begun?
  | _ => []

def blocksAlong (ns : Namespace) : List Event → List Block
  | [] => []
  | event :: rest =>
    ns.blocksIn event ++ (Outcome.state (event.run ns)).blocksAlong rest

/-- The identities that the events of a run allocate, whether they succeed or
fail. -/
def allocatedAlong (ns : Namespace) : List Event → List InodeId
  | [] => []
  | event :: rest => event.units.allocated ns ++
      (Outcome.state (event.run ns)).allocatedAlong rest

/-- Nothing that a run has given out is given out again.  All that lives or has
lived was allocated in the run; what was allocated is used up, whether or not it
came to live. -/
structure Unrepeated (start : Namespace) (events : List Event) : Prop where
  distinct : (start.allocatedAlong events).Nodup
  lived : ∀ {earlier}, earlier <+: events → ∀ {id},
    (start.after (earlier.map Event.run)).table.find? id ≠ none →
    id = .root ∨ id ∈ start.allocatedAlong events
  used : ∀ {id}, id ∈ start.allocatedAlong events →
    id.val < (start.after (events.map Event.run)).table.next.val
  gone : ∀ {id}, id ∈ start.allocatedAlong events →
    (start.after (events.map Event.run)).table.find? id = none →
    ∀ later : List Event,
      ((start.after (events.map Event.run)).after
        (later.map Event.run)).table.find? id = none
  answered : ∀ {earlier path client targets block ns'},
    earlier ++ [.call (.addBlock path client targets)] <+: events →
    addBlock path client targets (start.after (earlier.map Event.run)) =
      .ok block ns' →
    block ∈ start.blocksAlong events
  blocks : ∀ {path client targets block ns'},
    addBlock path client targets
      (start.after (events.map Event.run)) = .ok block ns' →
    ∀ earlier ∈ start.blocksAlong events, earlier.Precedes block

variable {α : Type} {ns ns' : Namespace} {id : InodeId} {block : Block}
  {mends : Bool}

section Identities

theorem Stepping.spent {request : Request α} (stepping : Stepping mends request)
    (sound : ns.Sound) (spent : ns.table.Spent id) :
    (Outcome.state (request ns)).table.Spent id :=
  have steps := stepping ns sound
  ⟨spent.1.trans_le steps.books.next_le, steps.books.dead spent.1 spent.2⟩

theorem Stepping.maintains_spent {request : Request α}
    (stepping : Stepping mends request) :
    Maintaining (fun ns => ns.Sound ∧ ns.table.Spent id) request :=
  fun ns held => ⟨stepping.sustaining ns held.1, stepping.spent held.1 held.2⟩

theorem maintains_spent (event : Event) :
    Maintaining (fun ns => ns.Sound ∧ ns.table.Spent id) event.run := by
  cases event with
  | call call => exact (stepping_call call).maintains_spent
  | apply edit => exact (stepping_apply edit).maintains_spent
  | replay edits =>
    exact .discarded
      (.replay (fun edit _ => (stepping_apply edit).maintains_spent)
        (fun loaded ns held => ⟨sustaining_setImageLoaded loaded ns held.1,
          held.2⟩) stepping_recount.maintains_spent)
  | setImageLoaded loaded =>
    exact fun ns held => ⟨sustaining_setImageLoaded loaded ns held.1, held.2⟩

/-- A run allocates the identities that the counter passes over, and no
other. -/
theorem passes_along (ns : Namespace) (events : List Event) :
    ns.Passes (ns.allocatedAlong events) (ns.after (events.map Event.run)) := by
  induction events generalizing ns with
  | nil => exact .of_same rfl
  | cons event rest ih => exact (event.units.passes ns).append (ih _)

theorem mem_allocatedAlong (events : List Event) :
    id ∈ ns.allocatedAlong events ↔
      ns.table.next.val ≤ id.val ∧
      id.val < (ns.after (events.map Event.run)).table.next.val := by
  obtain ⟨hle, hpassed⟩ := passes_along ns events
  rw [hpassed]
  exact InodeId.mem_between hle

theorem allocatedAlong_append (ns : Namespace) (first second : List Event) :
    ns.allocatedAlong (first ++ second) = ns.allocatedAlong first ++
      (ns.after (first.map Event.run)).allocatedAlong second := by
  induction first generalizing ns with
  | nil => rfl
  | cons event rest ih =>
    rw [List.cons_append, allocatedAlong, ih, ← List.append_assoc]
    rfl

theorem dead_after (sound : ns.Sound) (spent : ns.table.Spent id)
    (later : List Event) :
    (ns.after (later.map Event.run)).table.find? id = none :=
  (Maintaining.after (fun event _ => maintains_spent event) ⟨sound, spent⟩).2.2

/-- What lives in a run was allocated in it, the root apart. -/
theorem allocated_of_live {config : Config} {events : List Event}
    (live : ((fresh config).after (events.map Event.run)).table.find? id ≠
      none) :
    id = .root ∨ id ∈ (fresh config).allocatedAlong events := by
  have sound := (sound_fresh config).after events
  obtain ⟨inode, hlive⟩ := Option.ne_none_iff_exists'.1 live
  cases hstart : (fresh config).table.find? id with
  | some first => exact .inl (InodeTable.eq_root_of_fresh hstart).1
  | none =>
    right
    rw [mem_allocatedAlong]
    refine ⟨?_, sound.books.below hlive⟩
    by_contra hused
    exact live
      (dead_after (sound_fresh config) ⟨Nat.lt_of_not_le hused, hstart⟩ events)

end Identities

section Blocks

/-- All that is given out from now on comes after a block. -/
def Passed (block : Block) (ns : Namespace) : Prop :=
  block.Precedes ns.nextOut

theorem passed_past (block : Block) (ns : Namespace) :
    Passed block (ns.past block) :=
  ⟨Nat.le_max_right .., Nat.le_max_right ..⟩

/-- Numbers of blocks only grow. -/
theorem lasting_passed (block : Block) : Lasting True (Passed block) where
  beside beside held :=
    ⟨held.1.trans_le beside.nextBlock, held.2.trans_le beside.nextStamp⟩
  dropping _ held := held
  done {_ _ ns operation locks _ tx} deed free held hwork := by
    have ext := deed.frames.extends_of_ok hwork
    obtain ⟨next, _, hbase⟩ := ext.base
    rw [Passed, Transaction.commit, Transaction.unlock, journal_eq, hbase]
    exact held

/-- Whatever is made of a block that an edit names, all that is given out later
comes after it. -/
theorem passed_apply {edit : Edit} (free : ns.locks = ∅)
    (named : edit.begun? = some block) :
    Passed block (Outcome.state (apply edit ns)) := by
  cases edit with
  | addBlock path client begun targets =>
    obtain rfl := Option.some_inj.1 named
    rw [apply, addBlockAs_eq]
    have lasting := lasting_passed begun
    exact ((lasting.onFile (.addBlock client begun targets)).bind fun _ =>
      lasting.bystanding (.trackBlock _ _ _) : Preserving _ _) (ns.past begun)
        ⟨free, passed_past begun ns⟩ |>.2
  | _ => cases named

theorem passed_applyAll {edits : List Edit} (sound : ns.Sound)
    (named : block ∈ (tried edits ns).filterMap Edit.begun?) :
    Passed block (Outcome.state (applyAll edits ns)) := by
  have lasting := lasting_passed block
  obtain ⟨edit, htried, hnamed⟩ := List.mem_filterMap.1 named
  clear named
  induction edits generalizing ns with
  | nil => cases htried
  | cons first rest ih =>
    have hsound := sustaining_apply first ns sound
    have passed (h : first.begun? = some block) := passed_apply sound.locks h
    rw [tried] at htried
    cases hfirst : apply first ns with
    | error error mid =>
      rw [hfirst] at htried passed
      rw [applyAll, Outcome.bind_of_error hfirst]
      obtain rfl := List.mem_singleton.1 htried
      exact passed hnamed
    | ok done mid =>
      rw [hfirst] at htried passed hsound
      rw [applyAll, Outcome.bind_of_ok hfirst]
      rcases List.mem_cons.1 htried with rfl | hrest
      · have hall : Preserving (Passed block) (applyAll rest) :=
          .applyAll fun other _ => lasting.apply other fun _ => trivial
        exact (hall mid ⟨hsound.locks, passed hnamed⟩).2
      · exact ih hsound hrest

theorem passed_replay {edits : List Edit} (sound : ns.Sound)
    (named : block ∈ (tried edits ns.unloaded).filterMap Edit.begun?) :
    Passed block (Outcome.state (replay edits ns)) := by
  have hunloaded : ns.unloaded.Sound := ⟨sound.books, sound.ledger, sound.locks⟩
  have passed := passed_applyAll hunloaded named
  have hsound := sustaining_applyAll edits ns.unloaded hunloaded
  cases h : applyAll edits ns.unloaded with
  | error error mid =>
    rw [h] at passed
    rw [replay_of_applyAll_error h]
    exact passed
  | ok done mid =>
    rw [h] at passed hsound
    rw [replay_of_applyAll h]
    have recounting := (lasting_passed block).recount
    exact (recounting { mid with imageLoaded := true } ⟨hsound.locks, passed⟩).2

theorem passed_addBlock (path client : String) (targets : List String)
    (free : ns.locks = ∅) :
    Passed ns.nextOut (Outcome.state (addBlock path client targets ns)) := by
  have lasting := lasting_passed ns.nextOut
  have hrest :
      Preserving (Passed ns.nextOut)
        (addBlockAs path client ns.nextOut targets >>= fun _ =>
          pure ns.nextOut) :=
    (lasting.addBlockAs _ _ _ _).bind fun _ => lasting.bystanding (.pure _)
  let drawn : Namespace :=
    { ns with nextBlock := ns.nextBlock + 1, nextStamp := ns.nextStamp + 1 }
  exact (hrest drawn ⟨free, Nat.lt_succ_self _, Nat.lt_succ_self _⟩).2

/-- After an event all that is given out comes after the blocks that it gave out
or named. -/
theorem passed_event {event : Event} (sound : ns.Sound)
    (given : block ∈ ns.blocksIn event) :
    Passed block (Outcome.state (event.run ns)) := by
  cases event with
  | call call =>
    cases call with
    | addBlock path client targets =>
      obtain rfl := List.mem_singleton.1 given
      rw [Event.run, Call.run, state_discard]
      exact passed_addBlock path client targets sound.locks
    | _ => cases given
  | apply edit => exact passed_apply sound.locks (Option.mem_toList.1 given)
  | replay edits =>
    rw [Event.run, state_discard]
    exact passed_replay sound given
  | setImageLoaded loaded => cases given

theorem passed_along {events : List Event} (sound : ns.Sound)
    (given : block ∈ ns.blocksAlong events) :
    Passed block (ns.after (events.map Event.run)) := by
  induction events generalizing ns with
  | nil => cases given
  | cons event rest ih =>
    have hsound := sustaining_event event ns sound
    change Passed block
      ((Outcome.state (event.run ns)).after (rest.map Event.run))
    rcases List.mem_append.1 given with hfirst | hrest
    · have passed := passed_event sound hfirst
      exact (lasting_passed block).after
        (fun _ _ _ => trivial) hsound.locks passed
    · exact ih hsound hrest

theorem blocksAlong_append (ns : Namespace) (first second : List Event) :
    ns.blocksAlong (first ++ second) = ns.blocksAlong first ++
      (ns.after (first.map Event.run)).blocksAlong second := by
  induction first generalizing ns with
  | nil => rfl
  | cons event rest ih =>
    rw [List.cons_append, blocksAlong, ih, ← List.append_assoc]
    rfl

end Blocks

/-- In every run, no identity is allocated twice, one that was allocated and has
no inode gets none later, and each block that is begun has greater numbers than
all those given out or named before. -/
theorem unrepeated_after (config : Config) (events : List Event) :
    (fresh config).Unrepeated events := by
  have sound := (sound_fresh config).after events
  constructor
  case distinct =>
    rw [(passes_along (fresh config) events).2]
    exact InodeId.nodup_between _ _
  case lived =>
    rintro earlier ⟨rest, rfl⟩ id live
    refine (allocated_of_live live).imp_right fun hearlier => ?_
    rw [allocatedAlong_append]
    exact List.mem_append_left _ hearlier
  case used =>
    intro id allocated
    exact ((mem_allocatedAlong events).1 allocated).2
  case gone =>
    intro id allocated dead later
    exact dead_after sound ⟨((mem_allocatedAlong events).1 allocated).2,
      dead⟩ later
  case answered =>
    rintro earlier path client targets block ns' ⟨rest, rfl⟩ h
    rw [(addBlock_eq_ok.1 h).1, blocksAlong_append, blocksAlong_append]
    refine List.mem_append_left _ (List.mem_append_right _ ?_)
    exact List.mem_append_left _ (List.mem_singleton_self _)
  case blocks =>
    intro path client targets block ns' h earlier given
    rw [(addBlock_eq_ok.1 h).1]
    exact passed_along (sound_fresh config) given

/-- A run that gives out numbers in vain: a file is deleted, a directory finds
no room, a block is asked for where there is no file, and edits that fail name
blocks of their own. -/
def issuingRun : List Event :=
  [.call (.create "/f" { writer := ⟨"c", ""⟩ }), .call (.addBlock "/f" "c" []),
    .call (.create "/g" { writer := ⟨"c", ""⟩ }), .call (.delete "/g" false),
    .call (.setQuota "/" 1 (-1)), .call (.mkdirs "/a" {}),
    .call (.addBlock "/g" "c" []),
    .apply (.addBlock "/g" "c" ⟨2000000000, 0, 5000⟩ []),
    .replay [.addBlock "/g" "c" ⟨1999999999, 0, 6000⟩ [],
      .addBlock "/f" "c" ⟨2000000001, 0, 1⟩ []]]

theorem unrepeated_issuingRun :
    let ns := (fresh {}).after (issuingRun.map Event.run)
    (fresh {}).allocatedAlong issuingRun = [⟨2⟩, ⟨3⟩, ⟨4⟩] ∧
      ns.table.find? ⟨3⟩ = none ∧ ns.table.find? ⟨4⟩ = none ∧
      (fresh {}).blocksAlong issuingRun =
        [⟨1073741824, 0, 1000⟩, ⟨1073741825, 0, 1001⟩, ⟨2000000000, 0, 5000⟩,
          ⟨1999999999, 0, 6000⟩] ∧
      ns.nextOut = ⟨2000000001, 0, 6001⟩ ∧
      Outcome.error? (addBlock "/f" "c" [] ns) = none ∧
      (fresh {}).Unrepeated issuingRun := by
  refine ⟨?_, ?_, ?_, ?_, ?_, ?_,
    unrepeated_after {} issuingRun⟩ <;> decide +kernel

end Namespace

end QuotaTree
