/-
The names in directories.  As long as a namespace is loaded, no call brings a
name into a directory that a path could not name or that passes a limit, and no
directory grows past its limit.
-/
import QuotaTree.Proofs.BlockRecords
import QuotaTree.Proofs.Files.Requests
import QuotaTree.Proofs.Limits.Entries

namespace QuotaTree

open Nodes Work

section Slash

/-- The byte of a slash is no part of any other character. -/
theorem eq_slash_of_mem_encoded {char : Char}
    (h : 47 ∈ String.utf8EncodeChar char) : char = '/' := by
  have hval : char.toNat = 47 := by
    simp only [String.utf8EncodeChar, Char.toNat_val] at h
    -- all bytes of the longer forms are 128 or more
    split at h
    next => simp [← UInt8.toNat_inj] at h; omega
    next =>
      split at h
      next => simp [← UInt8.toNat_inj] at h; omega
      next => split at h <;> simp [← UInt8.toNat_inj] at h <;> omega
  exact Char.ext (UInt32.toNat_inj.1 (char.toNat_val.trans hval))

theorem slash_mem_of_mem_toBytes {text : String} (h : 47 ∈ Text.toBytes text) :
    '/' ∈ text.toList := by
  have hbytes :
      Text.toBytes text = text.toList.flatMap String.utf8EncodeChar := by
    rw [Text.toBytes, ← String.utf8Encode_toList, List.utf8Encode]
    simp
  rw [hbytes, List.mem_flatMap] at h
  obtain ⟨char, hchar, hbyte⟩ := h
  exact eq_slash_of_mem_encoded hbyte ▸ hchar

end Slash

namespace Namespace

variable {α : Type} {ns ns' : Namespace}

/-- No lock is held, limits are enforced, and all stored directories keep to
them. -/
structure Confined (ns : Namespace) : Prop where
  locks : ns.locks = ∅
  loaded : ns.imageLoaded = true
  within : ∀ {id inode}, ns.table.tree id = some inode → inode.Within ns.config

namespace Confined

theorem same (confined : ns.Confined) (same : ns.Same ns') : ns'.Confined where
  locks := same.locks.trans confined.locks
  loaded := same.loaded.trans confined.loaded
  within := by
    rw [same.table, same.config]
    exact confined.within

/-- No directory has gained an entry. -/
theorem resembling (confined : ns.Confined) (resembles : ns.Resembles ns')
    (locks : ns'.locks = ∅) : ns'.Confined where
  locks := locks
  loaded := resembles.loaded.trans confined.loaded
  within live := by
    obtain ⟨old, hold, alike⟩ := resembles.nodes.recast.alike.symm.live live
    rw [resembles.config]
    exact (confined.within hold).of_fewer
      fun hchild => (alike.child _).trans hchild

theorem opened (confined : ns.Confined) (operation : Operation)
    (locks : LockSet) : (ns.opened operation locks).Limited ns.config :=
  ⟨rfl, confined.loaded,
    fun live => confined.within (by rwa [tree_opened] at live)⟩

theorem commit {operation : Operation} {locks : LockSet} {tx : Transaction}
    (confined : ns.Confined) (ext : (ns.opened operation locks).Extends tx)
    (limited : tx.Limited ns.config) : tx.commit.Confined := by
  have hlocks : tx.commit.locks = ∅ := by
    obtain ⟨next, _, hbase⟩ := ext.base
    rw [Transaction.commit, Transaction.unlock, journal_eq, ext.locks, hbase]
    exact @releaseAll_opened ns operation locks confined.locks
  have hsettings : tx.commit.config = tx.base.config ∧
      tx.commit.imageLoaded = tx.base.imageLoaded := by
    rw [Transaction.commit, Transaction.unlock, journal_eq]
    exact ⟨rfl, rfl⟩
  refine ⟨hlocks, hsettings.2.trans limited.loaded, ?_⟩
  rw [tree_commit ext, hsettings.1, limited.settings]
  exact limited.within

end Confined

namespace Maintaining

variable {request : Request α}

theorem quiet (quiet : Quiet request) : Maintaining Confined request :=
  fun ns confined => confined.same (quiet ns)

theorem guarded {p : Prop} [Decidable p] {error : Error}
    {rest : PUnit → Request α} (accepted : Maintaining Confined (rest ⟨⟩)) :
    Maintaining Confined (if p then MonadExcept.throw error >>= rest
      else rest ⟨⟩) := by
  split
  · exact fun _ confined => confined
  · exact accepted

/-- A unit of work that keeps to the limits, or is rolled back. -/
theorem transact {operation : Operation} {demand : LockDemand} {work : Work α}
    (frames : work.Frames) (respects : ∀ config, work.Respects config) :
    Maintaining Confined (Namespace.transact operation demand work) := by
  intro ns confined
  cases h : Namespace.transact operation demand work ns with
  | error error ns' =>
    have untouched := Traceless.transact frames ns error ns' confined.locks h
    exact confined.resembling untouched.resembles
      (untouched.locks.trans confined.locks)
  | ok a ns' =>
    obtain ⟨locks, tx, _, hwork, rfl⟩ := exists_of_transact confined.locks h
    exact confined.commit (frames.extends_of_ok hwork)
      (respects ns.config _ a tx (confined.opened operation locks) hwork)

theorem onFile {operation : Operation} {path : String} {work : Chain → Work α}
    (frames : ∀ chain, (work chain).Frames)
    (respects : ∀ config chain, (work chain).Respects config) :
    Maintaining Confined (Namespace.onFile operation path work) :=
  (quiet (.resolvePath path)).bind fun _ => transact (.bind (.read _) frames)
    fun config => .bind (.read _) (respects config)

theorem resolving {next : String → Request α} (path : String)
    (later : ∀ path, Maintaining Confined (next path)) :
    Maintaining Confined (resolvePath path >>= next) :=
  (quiet (.resolvePath path)).bind later

theorem releasing {request : Request α} {blocks : α → List Block}
    {answer : α → β} (first : Maintaining Confined request) :
    Maintaining Confined (request >>= fun a =>
      releaseBlocks (blocks a) >>= fun _ => pure (answer a)) := by
  refine first.bind fun a => ?_
  exact (quiet (.releaseBlocks _)).bind fun _ => quiet (.pure _)

end Maintaining

open Maintaining (quiet)

theorem confined_addBlockAs (path client : String) (block : Block)
    (targets : List String) :
    Maintaining Confined (addBlockAs path client block targets) := by
  refine (quiet (quiet_past block)).bind fun _ => ?_
  refine Maintaining.bind ?_ fun file => quiet (quiet_trackBlock _ _ _)
  exact .onFile (.addBlockAt _ _ _) fun _ _ => .addBlockAt _ _

theorem confined_changeLimits (path : String) (edit : Edit) (liftsInodes : Bool)
    (change : Counts → Counts) :
    Maintaining Confined (changeLimits path edit liftsInodes change) := by
  refine .resolving path fun path => ?_
  exact .transact (.changeLimits _ _ _ _) fun _ => .changeLimits _ _ _

theorem confined_mutation {call : Call} (mutation : call.isMutation = true) :
    Maintaining Confined call.run := by
  cases call with
  | mkdirs path permission =>
    refine .resolving path fun path => ?_
    exact .transact (.makePath _ _) fun _ => .makePath _ _
  | create path options =>
    refine .discarded (.resolving path fun path => ?_)
    refine (quiet .get).bind fun ns => ?_
    extract_lets config replication blockSize rest
    refine .guarded (.guarded (.releasing (.transact ?_ fun _ => ?_)))
    · exact .createFile _ _ _ _
    · exact .createFile _ _ _ _
  | createSymlink target link permission createParent =>
    refine .discarded ?_
    unfold createSymlink
    extract_lets rest
    refine .guarded (.resolving link fun link => ?_)
    exact .transact (.symlinkPath _ _ _ _) fun _ => .symlinkPath _ _ _ _
  | addBlock path client targets =>
    refine .discarded ((quiet quiet_nextBlockOut).bind fun block => ?_)
    exact (confined_addBlockAs _ _ _ _).bind fun _ => quiet (.pure _)
  | abandonBlock path client block =>
    refine .discarded (.releasing ?_)
    exact .onFile (.abandonAt _ _) fun _ _ => .abandonAt _
  | complete path client lastLength =>
    exact .onFile (.completeAt _ _) fun _ _ => .completeAt _
  | append path writer => exact .onFile (.appendAt _) fun _ _ => .appendAt _
  | writeInline path client length =>
    refine (quiet .get).bind fun ns => ?_
    extract_lets limit rest
    exact .guarded (.onFile (.writeInlineAt _ _) fun _ _ => .writeInlineAt _)
  | truncate path length =>
    refine .resolving path fun path => ?_
    refine .bind (.transact (.bind (.read _) (.truncateAt _ _)) fun _ => ?_)
      fun _ => quiet (.releaseBlocks _)
    exact .bind (.read _) fun _ => .truncateAt _
  | delete path recursive =>
    refine .discarded (.resolving path fun path => ?_)
    refine .bind (.transact (.deletePath _ _) fun _ => .deletePath _ _)
      fun deleted => ?_
    cases deleted with
    | none => exact quiet (.pure _)
    | some blocks =>
      exact (quiet (.releaseBlocks _)).bind fun _ => quiet (.pure _)
  | rename source destination =>
    refine .resolving source fun source => ?_
    refine .resolving destination fun destination => ?_
    exact .transact (.renamePath _ _) fun _ => .renamePath _ _
  | setQuota path inodes bytes =>
    refine (quiet (.requireLegal inodes)).bind fun _ => ?_
    refine (quiet (.requireLegal bytes)).bind fun _ => ?_
    extract_lets rest
    exact .guarded (confined_changeLimits _ _ _ _)
  | setTypeQuota path type limit =>
    change Maintaining Confined (setTypeQuota path type limit)
    unfold setTypeQuota
    extract_lets rest
    refine .guarded ((quiet (.requireLegal limit)).bind fun _ => ?_)
    exact confined_changeLimits _ _ _ _
  | setStoragePolicy path policy =>
    refine .resolving path fun path => ?_
    exact .transact (.setPolicy _ _) fun _ => .setPolicy _
  | setReplication path replication =>
    change Maintaining Confined (setReplication path replication)
    unfold setReplication
    extract_lets rest
    refine .guarded (.resolving path fun path => ?_)
    exact .transact (.setReplication _ _) fun _ => .setReplication _
  | mergeUpdates => cases mutation
  | recount => cases mutation
  | query query => cases mutation

/-- A call keeps to the limits, whether it succeeds or fails. -/
theorem Confined.call (confined : ns.Confined) (sound : ns.Sound)
    (call : Call) : (Outcome.state (call.run ns)).Confined := by
  cases mutation : call.isMutation with
  | true => exact confined_mutation mutation ns confined
  | false =>
    exact confined.resembling (resembles_of_not_mutation sound mutation)
      (stepping_call call ns sound).locks

theorem Confined.apply (confined : ns.Confined) (sound : ns.Sound)
    (edit : Edit) : (Outcome.state (apply edit ns)).Confined := by
  by_cases plain : edit.begun? = none
  · rw [Edit.apply_eq_run plain]
    exact confined.call sound edit.call
  · cases edit with
    | addBlock path client block targets =>
      exact confined_addBlockAs path client block targets ns confined
    | _ => exact absurd rfl plain

theorem confined_fresh (config : Config) : (fresh config).Confined where
  locks := rfl
  loaded := rfl
  within live := by
    rw [(InodeTable.eq_root_of_fresh live).2]
    exact ⟨fun _ _ _ hchild => (by cases hchild), fun _ => Nat.zero_le _⟩

end Namespace

/-- The namespace counts as loaded all through the event, and after it. -/
def Event.staysLoaded : Event → Bool
  | .call _ | .apply _ => true
  | .replay _ => false
  | .setImageLoaded loaded => loaded

/-- A name that may stand in a directory under these settings: a component of a
path, no longer than is allowed. -/
structure Name.Legal (name : Name) (config : Config) : Prop where
  nonempty : name.bytes ≠ []
  slashless : '/'.toUInt8 ∉ name.bytes
  notHere : name ≠ Name.ofText "."
  notAbove : name ≠ Name.ofText ".."
  short : config.maxNameLength ≠ 0 → name.length ≤ config.maxNameLength

namespace Name.Proper

variable {name : Name}

/-- A proper name is not the name of a text that is no component. -/
theorem ne_ofText (proper : name.Proper) {text : String}
    (h : Path.isComponent text.toList = false) : name ≠ Name.ofText text := by
  rintro rfl
  have hcomponent := proper.component
  rw [Name.text_ofText, h] at hcomponent
  cases hcomponent

theorem legal {config : Config} (proper : name.Proper)
    (short : config.maxNameLength ≠ 0 → name.length ≤ config.maxNameLength) :
    name.Legal config where
  nonempty hempty := by
    have hname : name = Name.ofText "" :=
      congrArg Name.mk (hempty.trans (by decide))
    exact proper.ne_ofText (by decide) hname
  slashless hslash := by
    rw [← proper.ofText] at hslash
    exact proper.clean (slash_mem_of_mem_toBytes hslash)
  notHere := proper.ne_ofText (by decide)
  notAbove := proper.ne_ofText (by decide)
  short := short

end Name.Proper

namespace Namespace

variable {ns : Namespace} {config : Config}

/-- What holds of the entries of all directories. -/
structure Tidy (ns : Namespace) (config : Config) : Prop where
  legal : ∀ {id inode}, ns.table.find? id = some inode →
    ∀ entry ∈ inode.entries,
    entry.1.Legal config
  few : ∀ {id inode}, ns.table.find? id = some inode → config.maxEntries ≠ 0 →
    inode.entries.length ≤ config.maxEntries
  unreserved : ∀ {root}, ns.table.find? .root = some root →
    ∀ entry ∈ root.entries,
    entry.1 ≠ Name.ofText reservedName

theorem Confined.tidy (confined : ns.Confined) (sound : ns.Sound) :
    ns.Tidy ns.config where
  legal live entry hentry := by
    have hchild := Inode.mem_entries.1 hentry
    have proper := sound.books.named (entryAt_eq_some.2 ⟨_, live, hchild⟩)
    exact proper.legal fun hmax => (confined.within live).short hmax hchild
  few live := (confined.within live).few
  unreserved live entry hentry heq := by
    have hnone := sound.books.unreserved
    rw [← heq, show ns.books.nodes = ns.table.tree from rfl,
      entryAt_of_live live, Inode.mem_entries.1 hentry] at hnone
    cases hnone

/-- What holds in every state of a run that stays loaded. -/
theorem confined_event {event : Event} (loaded : event.staysLoaded = true) :
    Maintaining (fun ns => ns.Sound ∧ ns.Confined ∧
      ns.config = config) event.run := by
  rintro ns ⟨sound, confined, rfl⟩
  refine ⟨sustaining_event event ns sound, ?_⟩
  cases event with
  | call call =>
    exact ⟨confined.call sound call, (stepping_call call ns sound).config⟩
  | apply edit =>
    exact ⟨confined.apply sound edit, (stepping_apply edit ns sound).config⟩
  | replay edits => cases loaded
  | setImageLoaded marked =>
    exact ⟨⟨confined.locks, loaded, confined.within⟩, rfl⟩

/-- In every state that a loaded namespace comes to, all names are legal and no
directory has more entries than are allowed, whatever was called before. -/
theorem tidy_after (config : Config) (events : List Event)
    (loaded : ∀ event ∈ events, event.staysLoaded = true) :
    ((fresh config).after (events.map Event.run)).Tidy config := by
  have held :=
    Maintaining.after (fun event h => confined_event (loaded event h))
      ⟨sound_fresh config, confined_fresh config, rfl⟩
  obtain ⟨sound, confined, hconfig⟩ := held
  have htidy := confined.tidy sound
  rwa [hconfig] at htidy

/-- A run at the limits of a directory that may have two entries with names of
three bytes: a third entry, a longer name and a reserved name are refused, while
an entry of the full directory may be renamed, and one that left makes room for
another. -/
def crowdedRun : List Event :=
  [.call (.mkdirs "/a/b" {}), .call (.mkdirs "/a/c" {}),
    .call (.mkdirs "/a/d" {}), .call (.mkdirs "/long" {}),
    .call (.mkdirs "/.reserved" {}), .call (.mkdirs "/x" {}),
    .call (.rename "/a/b" "/a/e"), .call (.rename "/x" "/a"),
    .call (.rename "/a/c" "/x/long"), .call (.rename "/a/c" "/x/f"),
    .apply (.mkdirs "/a/g" {})]

theorem tidy_after_crowdedRun :
    let config : Config := { maxNameLength := 3, maxEntries := 2 }
    let ns := (fresh config).after (crowdedRun.map Event.run)
    ns.table.nodes.toList.map (fun node => node.2.entries.map Prod.fst) =
        [["a", "x"], ["e", "g"], [], [], ["f"], []].map (List.map Name.ofText) ∧
      ns.Tidy config :=
  ⟨by decide +kernel, tidy_after _ crowdedRun (by decide)⟩

end Namespace

end QuotaTree
