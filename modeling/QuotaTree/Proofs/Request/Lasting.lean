/-
What lasts through every request.  A request looks at the namespace, gives out
numbers, keeps the block map, and carries out units of work; merging also drops
what is pending for inodes that are gone.  What all these keep, every event
keeps.
-/
import QuotaTree.Proofs.Files.Requests
import QuotaTree.Proofs.Limits.Legal
import QuotaTree.Proofs.Refusal

namespace QuotaTree

open Work

/-- The units of work on the file at the end of a chain. -/
inductive Work.FileDeed : {α : Type} → (Chain → Work α) → Prop
  | addBlock (client : String) (block : Block) (targets : List String) :
    FileDeed (addBlockAt client block targets)
  | abandon (client : String) (block : Nat) : FileDeed (abandonAt client block)
  | complete (client : String) (lastLength : Nat) :
    FileDeed (completeAt client lastLength)
  | append (writer : Writer) : FileDeed (appendAt writer)
  | writeInline (client : String) (length : Nat) :
    FileDeed (writeInlineAt client length)
  | truncate (path : String) (length : Int) : FileDeed (truncateAt path length)

/-- The units of work by which requests change what is stored, those that set
limits only where they are `settable`. -/
inductive Work.Deed (settable : Prop) : {α : Type} → Work α → Prop
  | makePath (path : String) (permission : Permission) :
    Deed settable (makePath path permission)
  | createFile (path : String) (options : CreateOptions)
      (replication blockSize : Nat) :
    Deed settable (createFile path options replication blockSize)
  | symlinkPath (target link : String) (permission : Permission)
      (createParent : Bool) :
    Deed settable (symlinkPath target link permission createParent)
  | deletePath (path : String) (recursive : Bool) :
    Deed settable (deletePath path recursive)
  | renamePath (source destination : String) :
    Deed settable (renamePath source destination)
  | changeLimits (path : String) (edit : Edit) {liftsInodes : Bool}
      {change : Counts → Counts} (set : settable)
      (admissible : Counts.Admissible liftsInodes change) :
    Deed settable (changeLimits path edit liftsInodes change)
  | setPolicy (path : String) (policy : StoragePolicy) :
    Deed settable (setPolicy path policy)
  | setReplication (path : String) (replication : Nat) :
    Deed settable (setReplication path replication)
  | atFile {α : Type} {work : Chain → Work α} (path : String) (following : Bool)
      (deed : FileDeed work) :
    Deed settable (read (Chain.resolve · path following) >>= work)
  | mergeAll (ids : List InodeId) : Deed settable (mergeAll ids)
  | recountAll : Deed settable recountAll

namespace Work

variable {α : Type}

theorem FileDeed.frames {work : Chain → Work α} (deed : FileDeed work)
    (chain : Chain) : (work chain).Frames := by
  cases deed with
  | addBlock client block targets => exact .addBlockAt _ _ _ chain
  | abandon client block => exact .abandonAt _ _ chain
  | complete client lastLength => exact .completeAt _ _ chain
  | append writer => exact .appendAt _ chain
  | writeInline client length => exact .writeInlineAt _ _ chain
  | truncate path length => exact .truncateAt _ _ chain

theorem Deed.frames {settable : Prop} {work : Work α}
    (deed : Deed settable work) : work.Frames := by
  cases deed with
  | makePath path permission => exact .makePath _ _
  | createFile path options replication blockSize => exact .createFile _ _ _ _
  | symlinkPath target link permission createParent =>
    exact .symlinkPath _ _ _ _
  | deletePath path recursive => exact .deletePath _ _
  | renamePath source destination => exact .renamePath _ _
  | changeLimits path edit set admissible => exact .changeLimits _ _ _ _
  | setPolicy path policy => exact .setPolicy _ _
  | setReplication path replication => exact .setReplication _ _
  | atFile path following deed => exact .bind (.read _) deed.frames
  | mergeAll ids => exact .mergeAll ids
  | recountAll => exact Namespace.frames_recountAll

end Work

def Call.setsLimits : Call → Prop
  | .setQuota .. | .setTypeQuota .. => True
  | _ => False

def Event.setsLimits : Event → Prop
  | .call made => made.setsLimits
  | .apply edit => edit.call.setsLimits
  | .replay edits => ∃ edit ∈ edits, edit.call.setsLimits
  | .setImageLoaded _ => False

namespace Namespace

/-- The tree, the ledger and the settings are as they were; numbers may have
been given out. -/
structure Beside (before after : Namespace) : Prop where
  config : after.config = before.config
  nodes : after.table.nodes = before.table.nodes
  next : before.table.next.val ≤ after.table.next.val
  ledger : after.ledger = before.ledger
  locks : after.locks = before.locks
  nextBlock : before.nextBlock ≤ after.nextBlock
  nextStamp : before.nextStamp ≤ after.nextStamp

variable {α β : Type} {ns ns' : Namespace} {holds : Namespace → Prop}

theorem Untouched.beside (untouched : ns.Untouched ns') : ns.Beside ns' where
  config := untouched.config
  nodes := untouched.nodes
  next := untouched.next
  ledger := untouched.ledger
  locks := untouched.locks
  nextBlock := untouched.nextBlock
  nextStamp := untouched.nextStamp

/-- A request with which nothing happens to the tree, the ledger and the
settings. -/
def Bystanding (request : Request α) : Prop :=
  ∀ ns : Namespace, ns.Beside (Outcome.state (request ns))

namespace Bystanding

theorem of_idle {request : Request α} (idle : Idle request) :
    Bystanding request :=
  fun ns => (idle ns).beside

theorem pure (a : α) : Bystanding (Pure.pure a : Request α) :=
  fun ns => (Untouched.refl ns).beside

theorem throw (error : Error) :
    Bystanding (MonadExcept.throw error : Request α) :=
  fun ns => (Untouched.refl ns).beside

theorem releaseBlocks (blocks : List Block) :
    Bystanding (Namespace.releaseBlocks blocks) :=
  fun _ => ⟨rfl, rfl, Nat.le_refl _, rfl, rfl, Nat.le_refl _, Nat.le_refl _⟩

theorem trackBlock (block : Block) (file : InodeId) (targets : List String) :
    Bystanding (Namespace.trackBlock block file targets) := by
  intro ns
  rw [trackBlock_eq]
  exact ⟨rfl, rfl, Nat.le_refl _, rfl, rfl, Nat.le_refl _, Nat.le_refl _⟩

theorem setImageLoaded (loaded : Bool) :
    Bystanding (Namespace.setImageLoaded loaded) :=
  fun _ => ⟨rfl, rfl, Nat.le_refl _, rfl, rfl, Nat.le_refl _, Nat.le_refl _⟩

end Bystanding

/-- What neither depends on what stands beside the tree, nor is lost when
pending updates are dropped, nor when a unit of work is done. -/
structure Lasting (settable : Prop) (holds : Namespace → Prop) : Prop where
  beside : ∀ {ns ns'}, Beside ns ns' → holds ns → holds ns'
  dropping :
    ∀ {ns} ids, holds ns → holds { ns with ledger := ns.ledger.withdrawAll ids }
  done :
    ∀ {α : Type} {work : Work α} {ns operation locks a tx}, work.Deed settable →
      ns.locks = ∅ →
    holds ns → work (ns.opened operation locks) = .ok a tx → holds tx.commit

/-- A request that keeps what lasts, as long as no lock is held between two
requests. -/
abbrev Preserving (holds : Namespace → Prop) (request : Request α) : Prop :=
  Maintaining (fun ns => ns.locks = ∅ ∧ holds ns) request

/-- A request that is refused on a condition. -/
theorem Preserving.guarded {p : Prop} [Decidable p] {error : Error}
    {rest : PUnit → Request α} (accepted : ¬ p → Preserving holds (rest ⟨⟩)) :
    Preserving holds (if p then MonadExcept.throw error >>= rest
      else rest ⟨⟩) := by
  split
  next => exact fun _ held => held
  next h => exact accepted h

namespace Lasting

variable {settable : Prop} (lasting : Lasting settable holds)

include lasting

theorem bystanding {request : Request α} (bystanding : Bystanding request) :
    Preserving holds request :=
  fun ns held =>
    ⟨(bystanding ns).locks.trans held.1, lasting.beside (bystanding ns) held.2⟩

theorem idle {request : Request α} (idle : Idle request) :
    Preserving holds request :=
  lasting.bystanding (.of_idle idle)

/-- A unit of work is done as a whole, or rolled back. -/
theorem transact {operation : Operation} {demand : LockDemand} {work : Work α}
    (deed : work.Deed settable) :
    Preserving holds (Namespace.transact operation demand work) := by
  rintro ns ⟨free, held⟩
  cases h : Namespace.transact operation demand work ns with
  | error error ns' =>
    have untouched := Traceless.transact deed.frames ns error ns' free h
    exact ⟨untouched.locks.trans free, lasting.beside untouched.beside held⟩
  | ok a ns' =>
    obtain ⟨locks, tx, _, hwork, rfl⟩ := exists_of_transact free h
    refine ⟨?_, lasting.done deed free held hwork⟩
    have ext := deed.frames.extends_of_ok hwork
    obtain ⟨next, _, hbase⟩ := ext.base
    change Namespace.locks tx.commit = ∅
    rw [Transaction.commit, Transaction.unlock, journal_eq, ext.locks, hbase]
    exact @releaseAll_opened ns operation locks free

theorem onFile {operation : Operation} {path : String} {work : Chain → Work α}
    (deed : FileDeed work) :
    Preserving holds (Namespace.onFile operation path work) :=
  (lasting.idle (.resolvePath path)).bind
    fun _ => lasting.transact (.atFile _ false deed)

theorem addBlockAs (path client : String) (block : Block)
    (targets : List String) :
    Preserving holds (Namespace.addBlockAs path client block targets) :=
  (lasting.idle
    (.raise (fun _ => Nat.le_max_left ..) (fun _ => Nat.le_max_left ..))).bind
    fun _ => (lasting.onFile (.addBlock _ _ _)).bind fun _ =>
      lasting.bystanding (.trackBlock _ _ _)

/-- A request that has checked a value. -/
theorem requireLegal_bind {value : Int} {next : Unit → Request α}
    (rest : Limit.isLegal value = true → Preserving holds (next ())) :
    Preserving holds (requireLegal value >>= next) := by
  intro ns held
  cases h : requireLegal value ns with
  | error error ns' =>
    rw [Outcome.bind_of_error h]
    have hstate := lasting.idle (.requireLegal value) ns held
    rwa [h] at hstate
  | ok done ns' =>
    obtain ⟨legal, rfl⟩ := requireLegal_eq_ok.1 h
    rw [Outcome.bind_of_ok h]
    exact rest legal ns' held

theorem tryMerge : Preserving holds Namespace.tryMerge := by
  rintro ns ⟨free, held⟩
  rw [tryMerge_eq]
  have hdropped : ns.withoutGone.locks = ∅ ∧ holds ns.withoutGone :=
    ⟨free, lasting.dropping ns.goneTargets held⟩
  split
  next => exact hdropped
  next => exact lasting.transact (.mergeAll ns.liveTargets) _ hdropped

/-- By induction on the attempts that are left; each one goes on from what the
one before it has left. -/
theorem mergeRetrying (retries : Nat) :
    Preserving holds (Namespace.mergeRetrying retries) := by
  induction retries with
  | zero => exact lasting.tryMerge
  | succ retries ih =>
    refine lasting.tryMerge.tryCatch fun error => ?_
    cases error with
    | notFound path unresolved => exact ih
    | _ => exact lasting.bystanding (.throw _)

theorem mergeUpdates : Preserving holds Namespace.mergeUpdates :=
  fun ns => lasting.mergeRetrying ns.config.lockRetries ns

theorem recount : Preserving holds Namespace.recount := by
  intro ns held
  rw [recount_eq]
  split
  next => exact lasting.transact .recountAll ns held
  next => exact held

/-- A request that goes on with its path once the reserved form is read. -/
theorem resolving {path : String} {next : String → Request α}
    (rest : ∀ path, Preserving holds (next path)) :
    Preserving holds (resolvePath path >>= next) :=
  (lasting.idle (.resolvePath path)).bind rest

/-- Blocks that a request has taken from files leave the block map. -/
theorem releasing {request : Request α} {blocks : α → List Block}
    {answer : α → β} (first : Preserving holds request) :
    Preserving holds (request >>= fun a => releaseBlocks (blocks a) >>= fun _ =>
      pure (answer a)) := by
  refine first.bind fun a => ?_
  refine (lasting.bystanding (.releaseBlocks (blocks a))).bind fun _ => ?_
  exact lasting.bystanding (.pure (answer a))

theorem create (path : String) (options : CreateOptions) :
    Preserving holds (create path options) := by
  refine lasting.resolving fun path => ?_
  refine (lasting.idle .get).bind fun ns => ?_
  extract_lets config replication blockSize rest
  refine Preserving.guarded fun _ => ?_
  refine Preserving.guarded fun _ => ?_
  exact lasting.releasing (lasting.transact (.createFile _ _ _ _))

theorem createSymlink (target link : String) (permission : Permission)
    (createParent : Bool) :
    Preserving holds (createSymlink target link permission createParent) := by
  unfold Namespace.createSymlink
  extract_lets rest
  refine Preserving.guarded fun _ => ?_
  refine lasting.resolving fun link => ?_
  exact lasting.transact (.symlinkPath _ _ _ _)

theorem addBlock (path client : String) (targets : List String) :
    Preserving holds (addBlock path client targets) := by
  refine (lasting.idle .nextBlockOut).bind fun block => ?_
  refine (lasting.addBlockAs path client block targets).bind fun _ => ?_
  exact lasting.bystanding (.pure block)

theorem writeInline (path client : String) (length : Nat) :
    Preserving holds (writeInline path client length) := by
  refine (lasting.idle .get).bind fun ns => ?_
  extract_lets limit rest
  exact Preserving.guarded fun _ => lasting.onFile (.writeInline _ _)

theorem truncate (path : String) (length : Int) :
    Preserving holds (truncate path length) := by
  refine lasting.resolving fun path => ?_
  refine (lasting.transact (.atFile _ true (.truncate _ _))).bind
    fun blocks => ?_
  exact lasting.bystanding (.releaseBlocks blocks)

theorem delete (path : String) (recursive : Bool) :
    Preserving holds (delete path recursive) := by
  refine lasting.resolving fun path => ?_
  refine (lasting.transact (.deletePath _ _)).bind fun deleted => ?_
  cases deleted with
  | none => exact lasting.bystanding (.pure false)
  | some blocks =>
    refine (lasting.bystanding (.releaseBlocks blocks)).bind fun _ => ?_
    exact lasting.bystanding (.pure true)

/-- The limits are legal once their checks are passed. -/
theorem setQuota (path : String) (inodes bytes : Int) (sets : settable) :
    Preserving holds (setQuota path inodes bytes) := by
  refine lasting.requireLegal_bind fun legal => ?_
  refine lasting.requireLegal_bind fun legalBytes => ?_
  extract_lets rest
  refine Preserving.guarded fun room => ?_
  refine lasting.resolving fun path => ?_
  exact lasting.transact
    (.changeLimits _ _ sets (Counts.admissible_setting legal room legalBytes))

theorem setTypeQuota (path : String) (type : StorageType) (limit : Int)
    (sets : settable) : Preserving holds (setTypeQuota path type limit) := by
  unfold Namespace.setTypeQuota
  extract_lets rest
  refine Preserving.guarded fun limitable => ?_
  refine lasting.requireLegal_bind fun legal => ?_
  refine lasting.resolving fun path => ?_
  exact lasting.transact
    (.changeLimits _ _ sets (Counts.admissible_settingType limitable legal))

theorem setReplication (path : String) (replication : Nat) :
    Preserving holds (setReplication path replication) := by
  unfold Namespace.setReplication
  extract_lets rest
  refine Preserving.guarded fun _ => ?_
  refine lasting.resolving fun path => ?_
  exact lasting.transact (.setReplication _ _)

/-- What lasts a call keeps, if it may set limits where it does. -/
theorem call (call : Call) (sets : call.setsLimits → settable) :
    Preserving holds call.run := by
  cases call with
  | mkdirs path permission =>
    exact lasting.resolving fun _ => lasting.transact (.makePath _ _)
  | create path options => exact .discarded (lasting.create path options)
  | createSymlink target link permission createParent =>
    exact .discarded (lasting.createSymlink target link permission createParent)
  | addBlock path client targets =>
    exact .discarded (lasting.addBlock path client targets)
  | abandonBlock path client block =>
    exact .discarded (lasting.releasing (lasting.onFile (.abandon _ _)))
  | complete path client lastLength => exact lasting.onFile (.complete _ _)
  | append path writer => exact lasting.onFile (.append _)
  | writeInline path client length =>
    exact lasting.writeInline path client length
  | truncate path length => exact lasting.truncate path length
  | delete path recursive => exact .discarded (lasting.delete path recursive)
  | rename source destination =>
    refine lasting.resolving fun source => ?_
    refine lasting.resolving fun destination => ?_
    exact lasting.transact (.renamePath _ _)
  | setQuota path inodes bytes =>
    exact lasting.setQuota path inodes bytes (sets trivial)
  | setTypeQuota path type limit =>
    exact lasting.setTypeQuota path type limit (sets trivial)
  | setStoragePolicy path policy =>
    exact lasting.resolving fun _ => lasting.transact (.setPolicy _ _)
  | setReplication path replication =>
    exact lasting.setReplication path replication
  | mergeUpdates => exact .discarded lasting.mergeUpdates
  | recount => exact .discarded lasting.recount
  | query query =>
    rintro ns ⟨free, held⟩
    obtain ⟨pauses, hstate⟩ := watching_query query ns free
    rw [Call.run, hstate]
    have hbeside : ns.Beside { ns with pauses } :=
      ⟨rfl, rfl, Nat.le_refl _, rfl, rfl, Nat.le_refl _, Nat.le_refl _⟩
    exact ⟨free, lasting.beside hbeside held⟩

theorem apply (edit : Edit) (sets : edit.call.setsLimits → settable) :
    Preserving holds (apply edit) := by
  by_cases plain : edit.begun? = none
  · rw [Edit.apply_eq_run plain]
    exact lasting.call edit.call sets
  · cases edit with
    | addBlock path client block targets =>
      exact lasting.addBlockAs path client block targets
    | _ => exact absurd rfl plain

/-- What lasts every event keeps, whether it succeeds or fails. -/
theorem event (event : Event) (sets : event.setsLimits → settable) :
    Preserving holds event.run := by
  cases event with
  | call call => exact lasting.call call sets
  | apply edit => exact lasting.apply edit sets
  | replay edits =>
    exact .discarded (.replay (fun edit mem => lasting.apply edit
      fun h => sets ⟨edit, mem, h⟩) (fun loaded => lasting.bystanding
        (.setImageLoaded loaded)) lasting.recount)
  | setImageLoaded loaded => exact lasting.bystanding (.setImageLoaded loaded)

/-- What lasts holds after every run if it holds before. -/
theorem after {events : List Event}
    (sets : ∀ event ∈ events, event.setsLimits → settable) (free : ns.locks = ∅)
    (held : holds ns) : holds (ns.after (events.map Event.run)) :=
  (Maintaining.after (fun event mem => lasting.event event (sets event mem))
    ⟨free, held⟩).2

end Lasting

end Namespace

end QuotaTree
