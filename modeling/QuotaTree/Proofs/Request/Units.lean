/-
The units of work that a request is put together from.  An identity is allocated
within a unit, which keeps a list of all that it has allocated: it is on that
list whether the unit succeeds or fails, and whatever becomes of the inode that
it is for.
-/
import QuotaTree.Proofs.Files.Requests
import QuotaTree.Proofs.Settling

namespace QuotaTree

open Work Transaction

namespace Namespace

/-- How a request is put together from units of work and from steps in which no
identity is allocated. -/
inductive Units : {α : Type} → Request α → Type 1
  | step {α : Type} {request : Request α}
      (still : ∀ ns, (Outcome.state (request ns)).table.next = ns.table.next) :
    Units request
  | transact {α : Type} (operation : Operation) (demand : LockDemand)
      {work : Work α} (frames : work.Frames) :
    Units (transact operation demand work)
  | bind {α β : Type} {request : Request α} {next : α → Request β}
      (first : Units request) (rest : ∀ a, Units (next a)) :
    Units (request >>= next)
  | ite {α : Type} {p : Prop} [Decidable p] {left right : Request α}
      (yes : Units left) (no : Units right) : Units (if p then left else right)
  | tryCatch {α : Type} {request : Request α} {handler : Error → Request α}
    (first : Units request) (rest : ∀ error, Units (handler error)) :
    Units (MonadExcept.tryCatch request handler)
  | tryFinally {α β : Type} {request : Request α} {ending : Request β}
      (first : Units request) (last : Units ending) :
    Units (try request finally ending)
  | changing {α : Type} {request : Namespace → Request α}
      (change : Namespace → Namespace)
      (still : ∀ ns, (change ns).table.next = ns.table.next)
      (rest : ∀ ns, Units (request ns)) : Units fun ns => request ns (change ns)

namespace Units

variable {α β : Type}

/-- The identities that a request allocates in its units of work, in their
order. -/
def allocated : {α : Type} → {request : Request α} → Units request → Namespace →
    List InodeId
  | _, _, .step _, _ => []
  | _, _, @transact _ operation demand work _, ns =>
    match ns.begin operation demand with
    | .ok tx => (Outcome.state (work tx)).created.reverse
    | .error _ => []
  | _, _, @bind _ _ request _ first rest, ns =>
    first.allocated ns ++
      match request ns with
      | .ok a mid => (rest a).allocated mid
      | .error _ _ => []
  | _, _, @ite _ p _ _ _ yes no, ns =>
    if p then yes.allocated ns else no.allocated ns
  | _, _, @tryCatch _ request _ first rest, ns =>
    first.allocated ns ++
      match request ns with
      | .ok _ _ => []
      | .error error mid => (rest error).allocated mid
  | _, _, @tryFinally _ _ request _ first last, ns =>
    first.allocated ns ++ last.allocated (Outcome.state (request ns))
  | _, _, .changing change _ rest, ns => (rest ns).allocated (change ns)

def pure (a : α) : Units (Pure.pure a : Request α) :=
  .step fun _ => rfl

def get : Units (MonadState.get : Request Namespace) :=
  .step fun _ => rfl

def throw (error : Error) : Units (MonadExcept.throw error : Request α) :=
  .step fun _ => rfl

def discarded {request : Request α} (units : Units request) :
    Units (discard request) :=
  units.bind fun _ => pure ()

def guarded {p : Prop} [Decidable p] {error : Error} {rest : PUnit → Request α}
    (units : Units (rest ⟨⟩)) :
    Units (if p then MonadExcept.throw error >>= rest else rest ⟨⟩) :=
  .ite (.bind (throw error) fun _ => units) units

def resolvePath (path : String) : Units (Namespace.resolvePath path) :=
  .step fun ns => by
    unfold Namespace.resolvePath
    cases Path.resolveReserved ns.table.view path <;> rfl

def requireLegal (value : Int) : Units (Namespace.requireLegal value) :=
  .ite (pure ()) (throw _)

def releaseBlocks (blocks : List Block) :
    Units (Namespace.releaseBlocks blocks) :=
  .step fun _ => rfl

def setImageLoaded (loaded : Bool) : Units (Namespace.setImageLoaded loaded) :=
  .step fun _ => rfl

def resolving {next : String → Request α} (path : String)
    (rest : ∀ path, Units (next path)) :
    Units (Namespace.resolvePath path >>= next) :=
  (resolvePath path).bind rest

def atPath {operation : Operation} {demand : String → LockDemand}
    {work : String → Work α} (path : String)
    (frames : ∀ path, (work path).Frames) :
    Units (Namespace.resolvePath path >>= fun path =>
      Namespace.transact operation (demand path) (work path)) :=
  resolving path fun path => .transact _ _ (frames path)

def onFile {operation : Operation} {work : Chain → Work α} (path : String)
    (frames : ∀ chain, (work chain).Frames) :
    Units (Namespace.onFile operation path work) :=
  atPath path fun _ => .bind (.read _) frames

end Units

variable {α : Type} {operation : Operation} {demand : LockDemand}
  {work : Work α}

/-- A unit of work begins with nothing allocated. -/
theorem exists_of_begin {ns : Namespace} {tx : Transaction}
    (h : ns.begin operation demand = .ok tx) : ∃ table locks,
    tx = { base := { ns with locks := table }, operation, locks } := by
  simp only [begin, Outcome.except_bind_eq_ok, Outcome.except_pure_eq_ok] at h
  obtain ⟨planned, _, taken, _, rfl⟩ := h
  exact ⟨taken.1, taken.2, rfl⟩

/-- Whether a unit of work succeeds or fails, the identities that it has
allocated are used up. -/
theorem next_transact {ns : Namespace} {tx : Transaction}
    (h : ns.begin operation demand = .ok tx) :
    (Outcome.state (transact operation demand work ns)).table.next =
      (Outcome.state (work tx)).base.table.next := by
  simp only [transact, h]
  cases work tx with
  | error error mid => rfl
  | ok a mid =>
    simp only [Outcome.state]
    cases Transaction.checkRemovals mid.base.table mid.writes.toList with
    | error fault => rfl
    | ok => exact next_commit mid

/-- The counter of identities has passed over some, and over no other. -/
def Passes (before : Namespace) (ids : List InodeId) (after : Namespace) :
    Prop :=
  before.table.next.val ≤ after.table.next.val ∧
    ids = InodeId.between before.table.next after.table.next

theorem Passes.of_same {before after : Namespace}
    (h : after.table.next = before.table.next) : before.Passes [] after := by
  rw [Passes, h, InodeId.between_self]
  exact ⟨Nat.le_refl _, rfl⟩

theorem Passes.append {first second third : Namespace}
    {early late : List InodeId} (passes : first.Passes early second)
    (passes' : second.Passes late third) :
    first.Passes (early ++ late) third := by
  obtain ⟨hle, rfl⟩ := passes
  obtain ⟨hle', rfl⟩ := passes'
  exact ⟨hle.trans hle', InodeId.between_append hle hle'⟩

/-- The identities that are allocated in a request are those that the counter
passes over, whether it succeeds or fails.  By induction on how it is put
together. -/
theorem Units.passes {request : Request α} (units : Units request)
    (ns : Namespace) :
    ns.Passes (units.allocated ns) (Outcome.state (request ns)) := by
  induction units generalizing ns with
  | step still => exact .of_same (still ns)
  | transact operation demand frames =>
    cases h : ns.begin operation demand with
    | error error =>
      simp only [allocated, Namespace.transact, h]
      exact .of_same rfl
    | ok tx =>
      have ext := frames tx
      rw [Passes, next_transact h]
      obtain ⟨table, locks, rfl⟩ := exists_of_begin h
      refine ⟨ext.next_le, ?_⟩
      simp only [allocated, h]
      rw [ext.created, List.append_nil, List.reverse_reverse]
  | @bind _ _ request next first rest ihfirst ihrest =>
    have hfirst := ihfirst ns
    simp only [allocated]
    cases h : request ns with
    | ok a mid =>
      rw [h] at hfirst
      rw [Outcome.bind_of_ok h]
      exact hfirst.append (ihrest a mid)
    | error error mid =>
      rw [h] at hfirst
      rw [Outcome.bind_of_error h, List.append_nil]
      exact hfirst
  | ite yes no ihyes ihno =>
    simp only [allocated]
    split
    · exact ihyes ns
    · exact ihno ns
  | @tryCatch _ request handler first rest ihfirst ihrest =>
    have hfirst := ihfirst ns
    simp only [allocated]
    cases h : request ns with
    | ok a mid =>
      rw [h] at hfirst
      rw [Outcome.tryCatch_of_ok h, List.append_nil]
      exact hfirst
    | error error mid =>
      rw [h] at hfirst
      rw [Outcome.tryCatch_of_error h]
      exact hfirst.append (ihrest error mid)
  | @tryFinally _ _ request ending first last ihfirst ihlast =>
    have hboth := (ihfirst ns).append (ihlast (Outcome.state (request ns)))
    rwa [← state_tryFinally] at hboth
  | changing change still rest ih =>
    have hrest := ih ns (change ns)
    rw [Passes, still ns] at hrest
    exact hrest

section Calls

variable (path : String)

def units_mkdirs (permission : Permission) : Units (mkdirs path permission) :=
  .atPath path fun _ => .makePath _ _

def units_create (options : CreateOptions) : Units (create path options) :=
  .resolving path fun _ => .bind .get fun _ => .guarded <| .guarded <|
    .bind (.transact _ _ (.createFile _ _ _ _)) fun _ =>
      (Units.releaseBlocks _).bind fun _ => .pure _

def units_createSymlink (target link : String) (permission : Permission)
    (createParent : Bool) :
    Units (createSymlink target link permission createParent) := by
  delta createSymlink
  extract_lets rest
  exact .guarded (.atPath link fun _ => .symlinkPath _ _ _ _)

def units_addBlockAs (client : String) (block : Block) (targets : List String) :
    Units (addBlockAs path client block targets) :=
  .bind (.step fun _ => rfl) fun _ => .bind (.onFile path (.addBlockAt _ _ _))
    fun file =>
    .step fun ns => by
      rw [trackBlock_eq]
      rfl

def units_addBlock (client : String) (targets : List String) :
    Units (addBlock path client targets) :=
  .bind (.step fun _ => rfl)
    fun _ => .bind (units_addBlockAs path client _ targets) fun _ =>
    .pure _

def units_abandonBlock (client : String) (block : Nat) :
    Units (abandonBlock path client block) :=
  .bind (.onFile path (.abandonAt _ _)) fun _ => (Units.releaseBlocks _).bind
    fun _ => .pure _

def units_writeInline (client : String) (length : Nat) :
    Units (writeInline path client length) :=
  .bind .get fun _ => .guarded (.onFile path (.writeInlineAt _ _))

def units_truncate (length : Int) : Units (truncate path length) :=
  .resolving path fun _ =>
    .bind (.transact _ _ (.bind (.read _) fun _ => .truncateAt _ _ _))
      fun _ => .releaseBlocks _

def units_delete (recursive : Bool) : Units (delete path recursive) :=
  .resolving path fun _ => .bind (.transact _ _ (.deletePath _ _)) fun
    | none => .pure _
    | some _ => (Units.releaseBlocks _).bind fun _ => .pure _

def units_rename (source destination : String) :
    Units (rename source destination) :=
  .resolving source fun _ => .resolving destination
    fun _ => .transact _ _ (.renamePath _ _)

def units_changeLimits (edit : Edit) (liftsInodes : Bool)
    (change : Counts → Counts) :
    Units (changeLimits path edit liftsInodes change) :=
  .atPath path fun _ => .changeLimits _ _ _ _

def units_setQuota (inodes bytes : Int) : Units (setQuota path inodes bytes) :=
  (Units.requireLegal _).bind fun _ => (Units.requireLegal _).bind fun _ =>
    .guarded (units_changeLimits path _ _ _)

def units_setTypeQuota (type : StorageType) (limit : Int) :
    Units (setTypeQuota path type limit) := by
  delta setTypeQuota
  extract_lets rest
  exact .guarded
    ((Units.requireLegal _).bind fun _ => units_changeLimits path _ _ _)

def units_setStoragePolicy (policy : StoragePolicy) :
    Units (setStoragePolicy path policy) :=
  .atPath path fun _ => .setPolicy _ _

def units_setReplication (replication : Nat) :
    Units (setReplication path replication) := by
  delta setReplication
  extract_lets rest
  exact .guarded (.atPath path fun _ => .setReplication _ _)

/-- What is left of an attempt to merge when the updates of inodes that are gone
are dropped. -/
def mergeLive (ns : Namespace) : Request Nat :=
  if ns.ledger.targets.isEmpty then Pure.pure 0
  else transact .mergeQuotaUpdates { quotaChains := ns.liveTargets }
    (Work.mergeAll ns.liveTargets)

def units_tryMerge : Units tryMerge :=
  @Units.changing _ mergeLive withoutGone (fun _ => rfl) fun ns =>
    .ite (.pure 0) (.transact _ _ (.mergeAll ns.liveTargets))

/-- Every attempt that is made. -/
def units_mergeRetrying : (retries : Nat) → Units (mergeRetrying retries)
  | 0 => units_tryMerge
  | retries + 1 => .tryCatch units_tryMerge fun error => by
    cases error with
    | notFound => exact units_mergeRetrying retries
    | _ => exact .throw _

def units_mergeUpdates : Units mergeUpdates :=
  .bind .get fun ns => units_mergeRetrying ns.config.lockRetries

def units_recount : Units recount :=
  .bind .get fun _ => .ite (.transact _ _ frames_recountAll) (.pure _)

def units_status (following : Bool) : Units (status path following) :=
  .atPath path fun _ => .bind (.read _) fun _ => .bind (.read _)
    fun _ => .pure _

def units_listing : Units (listing path) :=
  .atPath path fun _ => .bind (.read _) fun _ => .bind (.read _) fun _ =>
    .ite (.mapM fun _ => .map (.read _)) (.pure _)

def units_quotaUsage : Units (quotaUsage path) :=
  .atPath path fun _ => .bind (.read _) fun _ => .bind (.read _)
    fun _ => .pure _

def units_computeUsage : Units (computeUsage path) :=
  .atPath path fun _ => .bind (.read _) fun _ => .read _

def units_chainOf (following : Bool) : Units (chainOf path following) :=
  .atPath path fun _ => .read _

def units_summarizeQueue (batchSize : Nat) :
    (visits : Nat) → (queue : List InodeId) →
    (summary : Summary) → Units (summarizeQueue batchSize visits queue summary)
  | 0, [], _ => .pure _
  | 0, _ :: _, _ => .throw _
  | _ + 1, [], _ => .pure _
  | visits + 1, _ :: _, _ =>
    .bind (.transact _ _ (Looks.summarize _ _).frames) fun _ =>
      .ite (units_summarizeQueue batchSize visits _ _) (.bind
        (.step fun _ => rfl) fun _ => units_summarizeQueue batchSize visits _ _)

def units_summary : Units (summary path) :=
  .resolving path fun _ => .bind
    (.transact _ _ (.bind (.read _) fun _ => .bind (.read _) fun _ => .pure _))
      fun _ =>
      .bind .get fun _ => units_summarizeQueue _ _ _ _

def units_fullPath (id : InodeId) : Units (fullPath id) :=
  .step fun ns => by
    unfold fullPath
    split
    · cases ns.table.view.fullPath id <;> rfl
    · rfl

end Calls

end Namespace

open Namespace

def Query.units : (query : Query) → Units query.run
  | .status path following => (units_status path following).discarded
  | .listing path => (units_listing path).discarded
  | .quotaUsage path => (units_quotaUsage path).discarded
  | .computeUsage path => (units_computeUsage path).discarded
  | .summary path => (units_summary path).discarded
  | .chainOf path following => (units_chainOf path following).discarded
  | .resolvePath path => (Units.resolvePath path).discarded
  | .fullPath id => (units_fullPath id).discarded

def Call.units : (call : Call) → Units call.run
  | .mkdirs path permission => units_mkdirs path permission
  | .create path options => (units_create path options).discarded
  | .createSymlink target link permission createParent =>
    (units_createSymlink target link permission createParent).discarded
  | .addBlock path client targets =>
    (units_addBlock path client targets).discarded
  | .abandonBlock path client block =>
    (units_abandonBlock path client block).discarded
  | .complete path client lastLength =>
    .onFile path (.completeAt client lastLength)
  | .append path writer => .onFile path (.appendAt writer)
  | .writeInline path client length => units_writeInline path client length
  | .truncate path length => units_truncate path length
  | .delete path recursive => (units_delete path recursive).discarded
  | .rename source destination => units_rename source destination
  | .setQuota path inodes bytes => units_setQuota path inodes bytes
  | .setTypeQuota path type limit => units_setTypeQuota path type limit
  | .setStoragePolicy path policy => units_setStoragePolicy path policy
  | .setReplication path replication => units_setReplication path replication
  | .mergeUpdates => units_mergeUpdates.discarded
  | .recount => units_recount.discarded
  | .query asked => asked.units

def Edit.units (edit : Edit) : Units (apply edit) := by
  have again := edit.call.units
  cases edit with
  | addBlock path client block targets =>
    exact units_addBlockAs path client block targets
  | _ => exact again

def units_applyAll : (log : List Edit) → Units (applyAll log)
  | [] => .pure ()
  | edit :: rest => .bind edit.units fun _ => units_applyAll rest

def Event.units : (event : Event) → Units event.run
  | .call made => made.units
  | .apply edit => edit.units
  | .replay log =>
    .discarded <| (Units.setImageLoaded false).bind fun _ =>
      .bind ((units_applyAll log).tryFinally (.setImageLoaded true))
      fun _ => units_recount
  | .setImageLoaded loaded => .setImageLoaded loaded

end QuotaTree
