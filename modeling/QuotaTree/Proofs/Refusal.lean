/-
What a call leaves behind when it is refused: numbers that are used up, and
nothing else.  All that can fail after something has been changed is one unit of
work, which is rolled back; what comes before it only looks at the namespace or
gives out numbers, and what comes after it cannot fail.
-/
import QuotaTree.Proofs.Reachable

namespace QuotaTree

namespace Namespace

/-- Numbers may have been given out, and nothing else has happened. -/
structure Untouched (before after : Namespace) : Prop where
  config : after.config = before.config
  nodes : after.table.nodes = before.table.nodes
  ledger : after.ledger = before.ledger
  edits : after.edits = before.edits
  blocks : after.blocks = before.blocks
  imageLoaded : after.imageLoaded = before.imageLoaded
  locks : after.locks = before.locks
  pauses : after.pauses = before.pauses
  next : before.table.next.val ≤ after.table.next.val
  nextBlock : before.nextBlock ≤ after.nextBlock
  nextStamp : before.nextStamp ≤ after.nextStamp

variable {ns ns' : Namespace} {α β : Type} {request : Request α}
  {next : α → Request β}

theorem Untouched.refl (ns : Namespace) : ns.Untouched ns :=
  ⟨rfl, rfl, rfl, rfl, rfl, rfl, rfl, rfl, Nat.le_refl _, Nat.le_refl _,
    Nat.le_refl _⟩

theorem Untouched.trans {first second third : Namespace}
    (early : first.Untouched second) (late : second.Untouched third) :
    first.Untouched third where
  config := late.config.trans early.config
  nodes := late.nodes.trans early.nodes
  ledger := late.ledger.trans early.ledger
  edits := late.edits.trans early.edits
  blocks := late.blocks.trans early.blocks
  imageLoaded := late.imageLoaded.trans early.imageLoaded
  locks := late.locks.trans early.locks
  pauses := late.pauses.trans early.pauses
  next := early.next.trans late.next
  nextBlock := early.nextBlock.trans late.nextBlock
  nextStamp := early.nextStamp.trans late.nextStamp

/-- Rolling back gives back the locks and keeps the identities that were used
up. -/
theorem untouched_rollback {operation : Operation} {locks : LockSet}
    {tx : Transaction} (free : ns.locks = ∅)
    (ext : (ns.opened operation locks).Extends tx) :
    ns.Untouched tx.rollback := by
  obtain ⟨used, hle, hbase⟩ := ext.base
  have hlocks : tx.base.locks.releaseAll tx.locks = ns.locks := by
    rw [ext.locks, hbase, free]
    exact @releaseAll_opened ns operation locks free
  unfold Transaction.rollback Transaction.unlock
  rw [hlocks, hbase]
  exact ⟨rfl, rfl, rfl, rfl, rfl, rfl, rfl, rfl, hle, Nat.le_refl _,
    Nat.le_refl _⟩

def Idle (request : Request α) : Prop :=
  ∀ ns : Namespace, ns.Untouched (Outcome.state (request ns))

def Sure (request : Request α) : Prop :=
  ∀ ns : Namespace, ∃ a ns', request ns = .ok a ns'

/-- A request that at most gives out numbers when it fails. -/
def Traceless (request : Request α) : Prop :=
  ∀ (ns : Namespace) (error : Error) (ns' : Namespace), ns.locks = ∅ →
    request ns = .error error ns' → ns.Untouched ns'

namespace Idle

theorem throw (error : Error) : Idle (MonadExcept.throw error : Request α) :=
  fun ns => .refl ns

theorem get : Idle (MonadState.get : Request Namespace) :=
  fun ns => .refl ns

theorem resolvePath (path : String) : Idle (Namespace.resolvePath path) := by
  intro ns
  unfold Namespace.resolvePath
  cases Path.resolveReserved ns.table.view path <;> exact .refl ns

theorem requireLegal (value : Int) : Idle (Namespace.requireLegal value) := by
  intro ns
  unfold Namespace.requireLegal
  split <;> exact .refl ns

/-- Block numbers and stamps only grow. -/
theorem raise {blocks stamps : Namespace → Nat}
    (hblocks : ∀ ns, ns.nextBlock ≤ blocks ns)
    (hstamps : ∀ ns, ns.nextStamp ≤ stamps ns) :
    Idle (modify fun ns =>
      { ns with nextBlock := blocks ns, nextStamp := stamps ns } :
        Request PUnit) :=
  fun ns => ⟨rfl, rfl, rfl, rfl, rfl, rfl, rfl, rfl, Nat.le_refl _, hblocks ns,
    hstamps ns⟩

theorem nextBlockOut : Idle Namespace.nextBlockOut :=
  fun _ => ⟨rfl, rfl, rfl, rfl, rfl, rfl, rfl, rfl, Nat.le_refl _,
    Nat.le_succ _, Nat.le_succ _⟩

end Idle

namespace Sure

theorem pure (a : α) : Sure (Pure.pure a : Request α) :=
  fun ns => ⟨a, ns, rfl⟩

theorem releaseBlocks (blocks : List Block) :
    Sure (Namespace.releaseBlocks blocks) :=
  fun _ => ⟨⟨⟩, _, rfl⟩

theorem trackBlock (block : Block) (file : InodeId) (targets : List String) :
    Sure (Namespace.trackBlock block file targets) :=
  fun _ => ⟨⟨⟩, _, rfl⟩

theorem bind (first : Sure request) (rest : ∀ a, Sure (next a)) :
    Sure (request >>= next) := by
  intro ns
  obtain ⟨a, mid, hfirst⟩ := first ns
  rw [Outcome.bind_of_ok hfirst]
  exact rest a mid

end Sure

namespace Traceless

theorem of_idle (idle : Idle request) : Traceless request := by
  intro ns error ns' _ h
  have hidle := idle ns
  rw [h] at hidle
  exact hidle

/-- What has only given out numbers before it may come first. -/
theorem idle_bind (first : Idle request) (rest : ∀ a, Traceless (next a)) :
    Traceless (request >>= next) := by
  intro ns error ns' free h
  have hfirst := first ns
  cases hrequest : request ns with
  | ok a mid =>
    rw [hrequest] at hfirst
    rw [Outcome.bind_of_ok hrequest] at h
    exact hfirst.trans (rest a mid error ns' (hfirst.locks.trans free) h)
  | error cause mid =>
    rw [hrequest] at hfirst
    rw [Outcome.bind_of_error hrequest] at h
    cases h
    exact hfirst

/-- What cannot fail may come last. -/
theorem bind_sure (first : Traceless request) (rest : ∀ a, Sure (next a)) :
    Traceless (request >>= next) := by
  intro ns error ns' free h
  cases hrequest : request ns with
  | ok a mid =>
    obtain ⟨b, last, hrest⟩ := rest a mid
    rw [Outcome.bind_of_ok hrequest, hrest] at h
    cases h
  | error cause mid =>
    rw [Outcome.bind_of_error hrequest] at h
    cases h
    exact first ns error ns' free hrequest

theorem guarded {p : Prop} [Decidable p] {error : Error}
    {rest : PUnit → Request α} (accepted : Traceless (rest ⟨⟩)) :
    Traceless (if p then MonadExcept.throw error >>= rest else rest ⟨⟩) := by
  split
  · exact of_idle (.throw error)
  · exact accepted

theorem discarded (traceless : Traceless request) :
    Traceless (discard request) := by
  intro ns error ns' free h
  have hstate := state_discard request ns
  rw [h] at hstate
  cases hrequest : request ns with
  | ok a mid =>
    have hdone : discard request ns = .ok ⟨⟩ mid :=
      Outcome.discard_eq_ok.2 ⟨a, hrequest⟩
    rw [hdone] at h
    cases h
  | error cause mid =>
    rw [hrequest] at hstate
    obtain rfl : ns' = mid := hstate
    exact traceless ns cause ns' free hrequest

/-- A unit of work that fails is rolled back. -/
theorem transact {operation : Operation} {demand : LockDemand} {work : Work α}
    (frames : work.Frames) :
    Traceless (Namespace.transact operation demand work) := by
  intro ns error ns' free h
  cases hplan : demand.plan ns.table.view with
  | error cause =>
    rw [transact_of_unplanned free hplan] at h
    cases h
    exact .refl ns
  | ok locks =>
    rw [transact_of_plan free hplan (keyed_of_ok frames)] at h
    have ext := frames (ns.opened operation locks)
    cases hwork : work (ns.opened operation locks) with
    | ok value tx => simp [hwork] at h
    | error cause tx =>
      rw [hwork] at ext h
      cases h
      exact untouched_rollback free ext

theorem onFile {operation : Operation} {work : Chain → Work α} (path : String)
    (frames : ∀ chain, (work chain).Frames) :
    Traceless (Namespace.onFile operation path work) :=
  .idle_bind (.resolvePath path) fun _ => .transact (.bind (.read _) frames)

end Traceless

theorem traceless_create (path : String) (options : CreateOptions) :
    Traceless (create path options) := by
  refine .idle_bind (.resolvePath path) fun path => ?_
  refine .idle_bind .get fun ns => ?_
  extract_lets config replication blockSize rest
  refine .guarded (.guarded (.bind_sure ?_ fun answer => ?_))
  · exact .transact (.createFile _ _ _ _)
  · exact (Sure.releaseBlocks _).bind fun _ => .pure _

theorem traceless_createSymlink (target link : String) (permission : Permission)
    (createParent : Bool) :
    Traceless (createSymlink target link permission createParent) := by
  unfold createSymlink
  extract_lets rest
  refine .guarded (.idle_bind (.resolvePath link) fun link => ?_)
  exact .transact (.symlinkPath _ _ _ _)

theorem traceless_addBlockAs (path client : String) (block : Block)
    (targets : List String) :
    Traceless (addBlockAs path client block targets) := by
  refine .idle_bind (.raise ?_ ?_) fun _ => ?_
  · exact fun _ => Nat.le_max_left ..
  · exact fun _ => Nat.le_max_left ..
  refine .bind_sure ?_ fun file => .trackBlock _ _ _
  exact .onFile path (.addBlockAt _ _ _)

theorem traceless_addBlock (path client : String) (targets : List String) :
    Traceless (addBlock path client targets) := by
  refine .idle_bind .nextBlockOut fun block => ?_
  exact (traceless_addBlockAs path client block targets).bind_sure
    fun _ => .pure block

theorem traceless_abandonBlock (path client : String) (block : Nat) :
    Traceless (abandonBlock path client block) := by
  refine .bind_sure (.onFile path (.abandonAt _ _)) fun dropped => ?_
  exact (Sure.releaseBlocks dropped).bind fun _ => .pure _

theorem traceless_writeInline (path client : String) (length : Nat) :
    Traceless (writeInline path client length) := by
  refine .idle_bind .get fun ns => ?_
  extract_lets limit rest
  exact .guarded (.onFile path (.writeInlineAt _ _))

theorem traceless_truncate (path : String) (length : Int) :
    Traceless (truncate path length) := by
  refine .idle_bind (.resolvePath path) fun path => ?_
  refine .bind_sure ?_ fun dropped => .releaseBlocks dropped
  exact .transact (.bind (.read _) (.truncateAt _ _))

theorem traceless_delete (path : String) (recursive : Bool) :
    Traceless (delete path recursive) := by
  refine .idle_bind (.resolvePath path) fun path => ?_
  refine .bind_sure (.transact (.deletePath _ _)) fun deleted => ?_
  cases deleted with
  | none => exact .pure false
  | some blocks => exact (Sure.releaseBlocks blocks).bind fun _ => .pure true

theorem traceless_rename (source destination : String) :
    Traceless (rename source destination) := by
  refine .idle_bind (.resolvePath source) fun source => ?_
  refine .idle_bind (.resolvePath destination) fun destination => ?_
  exact .transact (.renamePath _ _)

theorem traceless_changeLimits (path : String) (edit : Edit)
    (liftsInodes : Bool) (change : Counts → Counts) :
    Traceless (changeLimits path edit liftsInodes change) :=
  .idle_bind (.resolvePath path) fun _ => .transact (.changeLimits _ _ _ _)

theorem traceless_setQuota (path : String) (inodes bytes : Int) :
    Traceless (setQuota path inodes bytes) := by
  refine .idle_bind (.requireLegal inodes) fun _ => ?_
  refine .idle_bind (.requireLegal bytes) fun _ => ?_
  extract_lets rest
  exact .guarded (traceless_changeLimits _ _ _ _)

theorem traceless_setTypeQuota (path : String) (type : StorageType)
    (limit : Int) : Traceless (setTypeQuota path type limit) := by
  unfold setTypeQuota
  extract_lets rest
  refine .guarded (.idle_bind (.requireLegal limit) fun _ => ?_)
  exact traceless_changeLimits _ _ _ _

theorem traceless_setReplication (path : String) (replication : Nat) :
    Traceless (setReplication path replication) := by
  unfold setReplication
  extract_lets rest
  refine .guarded (.idle_bind (.resolvePath path) fun path => ?_)
  exact .transact (.setReplication _ _)

end Namespace

/-- The calls that are there to change the tree, and not to settle or to read
it. -/
def Call.isMutation : Call → Bool
  | .mergeUpdates | .recount | .query _ => false
  | _ => true

namespace Namespace

variable {ns ns' : Namespace} {call : Call} {error : Error}

theorem traceless_call (mutation : call.isMutation = true) :
    Traceless call.run := by
  cases call with
  | mkdirs path permission =>
    refine .idle_bind (.resolvePath path) fun _ => ?_
    exact .transact (.makePath _ _)
  | create path options => exact (traceless_create path options).discarded
  | createSymlink target link permission createParent =>
    exact
      (traceless_createSymlink target link permission createParent).discarded
  | addBlock path client targets =>
    exact (traceless_addBlock path client targets).discarded
  | abandonBlock path client block =>
    exact (traceless_abandonBlock path client block).discarded
  | complete path client lastLength => exact .onFile path (.completeAt _ _)
  | append path writer => exact .onFile path (.appendAt _)
  | writeInline path client length =>
    exact traceless_writeInline path client length
  | truncate path length => exact traceless_truncate path length
  | delete path recursive => exact (traceless_delete path recursive).discarded
  | rename source destination => exact traceless_rename source destination
  | setQuota path inodes bytes => exact traceless_setQuota path inodes bytes
  | setTypeQuota path type limit => exact traceless_setTypeQuota path type limit
  | setStoragePolicy path policy =>
    exact .idle_bind (.resolvePath path) fun _ => .transact (.setPolicy _ _)
  | setReplication path replication =>
    exact traceless_setReplication path replication
  | mergeUpdates => cases mutation
  | recount => cases mutation
  | query query => cases mutation

/-- In every namespace that can come about, a mutation that is refused only uses
up numbers; no locks are held before and after. -/
theorem untouched_of_refused (config : Config) (events : List Event)
    (mutation : call.isMutation = true)
    (refused : call.run ((fresh config).after (events.map Event.run)) =
      .error error ns') :
    ((fresh config).after (events.map Event.run)).Untouched ns' ∧
    ns'.locks = ∅ := by
  have free := ((sound_fresh config).after events).locks
  have untouched := traceless_call mutation _ error ns' free refused
  exact ⟨untouched, untouched.locks.trans free⟩

def refusedRun : List Event :=
  [.call (.mkdirs "/q/d" {}), .call (.setQuota "/q" 10 1000),
    .call (.create "/q/d/f" { writer := ⟨"c", ""⟩ })]

/-- Moving to a reserved name is refused only after the source has been taken
out; it is put back. -/
theorem untouched_refusedRun :
    ∃ ns', (Call.rename "/q/d" "/.reserved").run ((fresh {}).after
      (refusedRun.map Event.run)) = .error (.reservedName reservedName) ns' ∧
      ((fresh {}).after (refusedRun.map Event.run)).Untouched ns' ∧
      ns'.locks = ∅ := by
  have herror :
      Outcome.error? ((Call.rename "/q/d" "/.reserved").run ((fresh {}).after
        (refusedRun.map Event.run))) = some (.reservedName reservedName) := by
    decide +kernel
  obtain ⟨ns', refused⟩ := Outcome.error?_eq_some.1 herror
  exact ⟨ns', refused, untouched_of_refused {} refusedRun rfl refused⟩

end Namespace

end QuotaTree
