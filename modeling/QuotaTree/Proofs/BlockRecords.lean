/-
What is known of blocks outside the tree is true of the tree: after any run of
requests the block map lists the blocks of files, each with its file and stamp.
-/
import QuotaTree.Proofs.Blocks.Tracking

namespace QuotaTree

open Nodes Work

namespace Namespace

variable {ns ns' : Namespace}

theorem tracking_changeLimits (path : String) (edit : Edit) (liftsInodes : Bool)
    (change : Counts → Counts) :
    Tracking (changeLimits path edit liftsInodes change) := by
  refine .looking_bind (.resolvePath path) fun path => ?_
  exact .of_shedding (.transact (.changeLimits _ _ _ _) keeps_changeLimits)

/-- Every mutation that succeeds brings the map up to date. -/
theorem tracking_mutation {call : Call} (mutation : call.isMutation = true) :
    Tracking call.run := by
  cases call with
  | mkdirs path permission =>
    refine .looking_bind (.resolvePath path) fun path => ?_
    exact .of_shedding (.transact (.makePath _ _) keeps_makePath)
  | create path options => exact (tracking_create path options).discarded
  | createSymlink target link permission createParent =>
    exact (tracking_createSymlink target link permission createParent).discarded
  | addBlock path client targets =>
    exact (tracking_addBlock path client targets).discarded
  | abandonBlock path client block =>
    refine .discarded (.releasing id (fun dropped => !dropped.isEmpty) ?_
      fun _ _ => rfl)
    exact .onFile (.abandonAt _ _) sheds_abandonAt
  | complete path client lastLength =>
    exact .of_shedding (.onFile (.completeAt _ _) keeps_completeAt)
  | append path writer =>
    exact .of_shedding (.onFile (.appendAt _) keeps_appendAt)
  | writeInline path client length =>
    refine .looking_bind .get fun ns => ?_
    extract_lets limit rest
    exact .guarded
      (.of_shedding (.onFile (.writeInlineAt _ _) keeps_writeInlineAt))
  | truncate path length =>
    refine .looking_bind (.resolvePath path) fun path => ?_
    refine .releasing id (fun _ => ())
      (.transact (.bind (.read _) (.truncateAt _ _)) ?_) fun _ _ => rfl
    intro tx dropped tx' ready h
    simp only [Outcome.bind_eq_ok, read_eq_ok] at h
    obtain ⟨chain, _, ⟨_, rfl⟩, hwork⟩ := h
    exact sheds_truncateAt ready hwork
  | delete path recursive =>
    refine .discarded (.looking_bind (.resolvePath path) fun path => ?_)
    refine .releasing (fun deleted => deleted.getD []) Option.isSome
      (.transact (.deletePath _ _) sheds_deletePath) fun deleted ns => ?_
    cases deleted <;> rfl
  | rename source destination =>
    refine .looking_bind (.resolvePath source) fun _ => ?_
    refine .looking_bind (.resolvePath destination) fun _ => ?_
    exact .of_shedding (.transact (.renamePath _ _) keeps_renamePath)
  | setQuota path inodes bytes =>
    refine .looking_bind (.requireLegal inodes) fun _ => ?_
    refine .looking_bind (.requireLegal bytes) fun _ => ?_
    extract_lets rest
    exact .guarded (tracking_changeLimits _ _ _ _)
  | setTypeQuota path type limit =>
    change Tracking (setTypeQuota path type limit)
    unfold setTypeQuota
    extract_lets rest
    refine .guarded (.looking_bind (.requireLegal limit) fun _ => ?_)
    exact tracking_changeLimits _ _ _ _
  | setStoragePolicy path policy =>
    refine .looking_bind (.resolvePath path) fun path => ?_
    exact .of_shedding (.transact (.setPolicy _ _) keeps_setPolicy)
  | setReplication path replication =>
    change Tracking (setReplication path replication)
    unfold setReplication
    extract_lets rest
    refine .guarded (.looking_bind (.resolvePath path) fun path => ?_)
    exact .of_shedding
      (.transact (.setReplication _ _) keeps_setReplication)
  | mergeUpdates => cases mutation
  | recount => cases mutation
  | query query => cases mutation

/-- A call that is no mutation changes nothing but what quotas have cached. -/
theorem resembles_of_not_mutation {call : Call} (sound : ns.Sound)
    (other : call.isMutation = false) :
    ns.Resembles (Outcome.state (call.run ns)) := by
  cases call with
  | mergeUpdates =>
    change ns.Resembles (Outcome.state (discard mergeUpdates ns))
    rw [state_discard]
    exact resembles_mergeUpdates sound
  | recount =>
    change ns.Resembles (Outcome.state (discard recount ns))
    rw [state_discard]
    exact resembles_recount sound
  | query query => exact (watching_query query).resembles sound
  | _ => cases other

theorem Tracks.call (tracks : ns.Tracks) (sound : ns.Sound) (call : Call) :
    (Outcome.state (call.run ns)).Tracks := by
  cases mutation : call.isMutation with
  | false => exact tracks.resembling (resembles_of_not_mutation sound mutation)
  | true =>
    cases h : call.run ns with
    | ok done ns' => exact tracking_mutation mutation ns done ns' sound tracks h
    | error error ns' =>
      have untouched := traceless_call mutation ns error ns' sound.locks h
      exact tracks.resembling untouched.resembles

theorem tracks_fresh (config : Config) : (fresh config).Tracks := by
  have hempty (id : InodeId) : (fresh config).table.tree.marks id = [] := by
    cases hlive : (fresh config).table.tree id with
    | none => exact marks_of_dead hlive
    | some inode =>
      rw [marks_of_live hlive, (InodeTable.eq_root_of_fresh hlive).2]
      rfl
  constructor
  case held =>
    intro id mark h
    rw [hempty] at h
    cases h
  case listed =>
    intro number record h
    cases h
  case once =>
    intro id
    rw [hempty]
    exact .nil
  case below =>
    intro number record h
    cases h

end Namespace

def Event.appliesEdits : Event → Bool
  | .apply _ | .replay _ => true
  | .call _ | .setImageLoaded _ => false

namespace Namespace

variable {ns : Namespace} {id : InodeId}

def blocksOf (ns : Namespace) (id : InodeId) : List Block :=
  ((ns.table.find? id).map Inode.blocks).getD []

/-- The map knows of exactly the blocks of live files, and what it records of
them is true. -/
structure RecordsBlocks (ns : Namespace) : Prop where
  /-- A number is in the map if and only if it is the number of a block of
  exactly one file. -/
  known : ∀ number, number ∈ ns.blocks ↔
    ∃! id, ∃ block ∈ ns.blocksOf id, block.id = number
  /-- The file on record has one block with the number, and the stamp on record
  is the block's. -/
  record : ∀ number record, ns.blocks[number]? = some record →
    ∃ block, (ns.blocksOf record.file).filter (·.id == number) = [block] ∧
      block.stamp = record.stamp
  /-- No block of a file is unknown. -/
  held : ∀ id, ∀ block ∈ ns.blocksOf id, ∃ record,
    ns.blocks[block.id]? = some record ∧
    record.file = id ∧ record.stamp = block.stamp

theorem marks_eq (ns : Namespace) (id : InodeId) :
    ns.table.tree.marks id = (ns.blocksOf id).map Block.mark := by
  change ((ns.table.find? id).map Inode.marks).getD [] = _
  rw [blocksOf]
  cases ns.table.find? id <;> rfl

/-- What stands once in a list is all that a search for its number finds. -/
theorem filter_eq_singleton {blocks : List Block} {block : Block}
    (mem : block ∈ blocks) (nodup : (Block.numbers blocks).Nodup) :
    blocks.filter (·.id == block.id) = [block] := by
  induction blocks with
  | nil => cases mem
  | cons head rest ih =>
    obtain ⟨hnot, hrest⟩ := List.nodup_cons.1 nodup
    rcases List.mem_cons.1 mem with rfl | hmem
    · rw [List.filter_cons_of_pos (by simp), List.filter_eq_nil_iff.2]
      intro other hother hsame
      exact hnot (List.mem_map.2 ⟨other, hother, beq_iff_eq.1 hsame⟩)
    · rw [List.filter_cons_of_neg, ih hmem hrest]
      intro hsame
      exact hnot (List.mem_map.2 ⟨block, hmem, (beq_iff_eq.1 hsame).symm⟩)

theorem Tracks.held_block (tracks : ns.Tracks) {block : Block}
    (h : block ∈ ns.blocksOf id) :
    ∃ record, ns.blocks[block.id]? = some record ∧ record.file = id ∧
      record.stamp = block.stamp :=
  tracks.held (ns.marks_eq id ▸ List.mem_map_of_mem h)

theorem Tracks.listed_block (tracks : ns.Tracks) {number : Nat}
    {record : BlockRecord} (h : ns.blocks[number]? = some record) :
    ∃ block ∈ ns.blocksOf record.file, block.id = number ∧
      block.stamp = record.stamp := by
  have hmark := tracks.listed h
  rw [marks_eq, List.mem_map] at hmark
  obtain ⟨block, hblock, hmark⟩ := hmark
  exact ⟨block, hblock, congrArg Prod.fst hmark, congrArg Prod.snd hmark⟩

theorem Tracks.recordsBlocks (tracks : ns.Tracks) : ns.RecordsBlocks where
  known number := by
    constructor
    · intro hmem
      obtain ⟨record, hrecord⟩ := Option.isSome_iff_exists.1
        (Std.ExtTreeMap.mem_iff_isSome_getElem?.1 hmem)
      obtain ⟨block, hblock, hnumber, _⟩ := tracks.listed_block hrecord
      refine ⟨record.file, ⟨block, hblock, hnumber⟩, ?_⟩
      rintro other ⟨block', hblock', rfl⟩
      obtain ⟨record', hrecord', rfl, _⟩ := tracks.held_block hblock'
      rw [hrecord, Option.some_inj] at hrecord'
      rw [hrecord']
    · rintro ⟨id, ⟨block, hblock, rfl⟩, _⟩
      obtain ⟨record, hrecord, _⟩ := tracks.held_block hblock
      exact Std.ExtTreeMap.mem_iff_isSome_getElem?.2 (hrecord ▸ rfl)
  record number record h := by
    obtain ⟨block, hblock, rfl, hstamp⟩ := tracks.listed_block h
    refine ⟨block, filter_eq_singleton hblock ?_, hstamp⟩
    have honce := tracks.once record.file
    rwa [marks_eq, Block.map_fst_mark] at honce
  held _ _ hblock := tracks.held_block hblock

theorem Tracks.after (tracks : ns.Tracks) (sound : ns.Sound)
    (events : List Event)
    (plain : ∀ event ∈ events, event.appliesEdits = false) :
    (ns.after (events.map Event.run)).Tracks := by
  induction events generalizing ns with
  | nil => exact tracks
  | cons event rest ih =>
    have hsound := sustaining_event event ns sound
    refine ih ?_ hsound fun event h => plain event (List.mem_cons_of_mem _ h)
    have hplain := plain event List.mem_cons_self
    cases event with
    | call call => exact tracks.call sound call
    | setImageLoaded loaded =>
      exact tracks.keeping (.refl _) rfl (Nat.le_refl _)
    | apply edit => cases hplain
    | replay edits => cases hplain

/-- As long as no edits are made again, the map and the files agree on all
blocks, whatever calls are made and whether they succeed. -/
theorem recordsBlocks_after (config : Config) (events : List Event)
    (plain : ∀ event ∈ events, event.appliesEdits = false) :
    ((fresh config).after (events.map Event.run)).RecordsBlocks :=
  ((tracks_fresh config).after (sound_fresh config) events plain).recordsBlocks

/-- A run that begins five blocks and loses four, one in each way there is: a
file is made anew, a block is given up, a directory is deleted, and a file is
cut. -/
def blockRun : List Event :=
  let writer : Writer := ⟨"c", ""⟩
  let options : CreateOptions := { writer, blockSize := some 10 }
  let file (path : String) := [Event.call (.create path options),
    .call (.addBlock path "c" []), .call (.complete path "c" 10)]
  file "/a/f" ++ [.call (.create "/a/f" { options with overwrite := true }),
    .call (.addBlock "/a/f" "c" []),
      .call (.abandonBlock "/a/f" "c" 1073741825)] ++
  file "/b/d/g" ++ [.call (.delete "/b" true)] ++
  file "/h" ++ [.call (.append "/h" writer), .call (.addBlock "/h" "c" []),
    .call (.complete "/h" "c" 10), .call (.truncate "/h" 4),
      .call (.rename "/h" "/a/h")]

theorem recordsBlocks_after_blockRun :
    ((fresh {}).after (blockRun.map Event.run)).blocks.keys = [1073741827] ∧
      ((fresh {}).after (blockRun.map Event.run)).RecordsBlocks :=
  ⟨by decide +kernel, recordsBlocks_after {} blockRun (by decide +kernel)⟩

end Namespace

end QuotaTree
