/-
The calls that clients make, one at a time, and the namespaces that runs of them
lead to.
-/
import QuotaTree.Proofs.Request.Adjust
import QuotaTree.Proofs.Request.Arrange
import QuotaTree.Proofs.Request.Create
import QuotaTree.Proofs.Request.Reading
import QuotaTree.Proofs.Request.Settle
import QuotaTree.Proofs.Request.Write

namespace QuotaTree

/-- The calls that only look at the tree. -/
inductive Query where
  | status (path : String) (following : Bool)
  | listing (path : String)
  | quotaUsage (path : String)
  | computeUsage (path : String)
  | summary (path : String)
  | chainOf (path : String) (following : Bool)
  | resolvePath (path : String)
  | fullPath (id : InodeId)

inductive Call where
  | mkdirs (path : String) (permission : Permission)
  | create (path : String) (options : CreateOptions)
  | createSymlink (target link : String) (permission : Permission)
      (createParent : Bool)
  | addBlock (path client : String) (targets : List String)
  | abandonBlock (path client : String) (block : Nat)
  | complete (path client : String) (lastLength : Nat)
  | append (path : String) (writer : Writer)
  | writeInline (path client : String) (length : Nat)
  | truncate (path : String) (length : Int)
  | delete (path : String) (recursive : Bool)
  | rename (source destination : String)
  | setQuota (path : String) (inodes bytes : Int)
  | setTypeQuota (path : String) (type : StorageType) (limit : Int)
  | setStoragePolicy (path : String) (policy : StoragePolicy)
  | setReplication (path : String) (replication : Nat)
  | mergeUpdates
  | recount
  | query (query : Query)

/-- The calls that bring up to date what quotas have cached. -/
def Call.settles : Call → Bool
  | .mergeUpdates | .recount => true
  | _ => false

/-- Everything that can happen to a namespace: a call, an edit that is made
again, a whole log of them, and its being marked as loaded or not. -/
inductive Event where
  | call (call : Call)
  | apply (edit : Edit)
  | replay (edits : List Edit)
  | setImageLoaded (loaded : Bool)

def Query.run : Query → Request Unit
  | .status path following => discard (Namespace.status path following)
  | .listing path => discard (Namespace.listing path)
  | .quotaUsage path => discard (Namespace.quotaUsage path)
  | .computeUsage path => discard (Namespace.computeUsage path)
  | .summary path => discard (Namespace.summary path)
  | .chainOf path following => discard (Namespace.chainOf path following)
  | .resolvePath path => discard (Namespace.resolvePath path)
  | .fullPath id => discard (Namespace.fullPath id)

def Call.run : Call → Request Unit
  | .mkdirs path permission => Namespace.mkdirs path permission
  | .create path options => discard (Namespace.create path options)
  | .createSymlink target link permission createParent =>
    discard (Namespace.createSymlink target link permission createParent)
  | .addBlock path client targets =>
    discard (Namespace.addBlock path client targets)
  | .abandonBlock path client block =>
    discard (Namespace.abandonBlock path client block)
  | .complete path client lastLength =>
    Namespace.complete path client lastLength
  | .append path writer => Namespace.append path writer
  | .writeInline path client length => Namespace.writeInline path client length
  | .truncate path length => Namespace.truncate path length
  | .delete path recursive => discard (Namespace.delete path recursive)
  | .rename source destination => Namespace.rename source destination
  | .setQuota path inodes bytes => Namespace.setQuota path inodes bytes
  | .setTypeQuota path type limit => Namespace.setTypeQuota path type limit
  | .setStoragePolicy path policy => Namespace.setStoragePolicy path policy
  | .setReplication path replication =>
    Namespace.setReplication path replication
  | .mergeUpdates => discard Namespace.mergeUpdates
  | .recount => discard Namespace.recount
  | .query asked => asked.run

def Event.run : Event → Request Unit
  | .call made => made.run
  | .apply edit => Namespace.apply edit
  | .replay edits => discard (Namespace.replay edits)
  | .setImageLoaded loaded => Namespace.setImageLoaded loaded

namespace Namespace

/-- The namespace after requests made one at a time; one that fails may have
changed it too. -/
def after (ns : Namespace) (requests : List (Request Unit)) : Namespace :=
  requests.foldl (fun ns request => Outcome.state (request ns)) ns

variable {α : Type}

theorem after_append (ns : Namespace) (first second : List (Request Unit)) :
    ns.after (first ++ second) = (ns.after first).after second :=
  List.foldl_append ..

theorem state_discard (request : Request α) (ns : Namespace) :
    Outcome.state (discard request ns) = Outcome.state (request ns) := by
  change Outcome.state (EStateM.map (Function.const α PUnit.unit) request ns) =
    _
  unfold EStateM.map
  cases request ns <;> rfl

/-- What comes finally comes after success and after failure. -/
theorem state_tryFinally {β : Type} (request : Request α) (ending : Request β)
    (ns : Namespace) :
    Outcome.state ((try request finally ending : Request α) ns) =
      Outcome.state (ending (Outcome.state (request ns))) := by
  change Outcome.state
    (EStateM.map Prod.fst (tryFinally' request fun _ => ending) ns) = _
  simp only [EStateM.map, tryFinally']
  cases request ns with
  | ok a mid =>
    cases hending : ending mid <;> simp [Outcome.state, hending]
  | error error mid =>
    cases hending : ending mid <;> simp [Outcome.state, hending]

theorem Stepping.discarded {mends : Bool} {request : Request α}
    (stepping : Stepping mends request) : Stepping mends (discard request) := by
  intro ns sound
  rw [state_discard]
  exact stepping ns sound

theorem Watching.discarded {request : Request α} (watching : Watching request) :
    Watching (discard request) := by
  intro ns free
  rw [state_discard]
  exact watching ns free

theorem watching_query (query : Query) : Watching query.run := by
  cases query with
  | status path following => exact (watching_status path following).discarded
  | listing path => exact (watching_listing path).discarded
  | quotaUsage path => exact (watching_quotaUsage path).discarded
  | computeUsage path => exact (watching_computeUsage path).discarded
  | summary path => exact (watching_summary path).discarded
  | chainOf path following => exact (watching_chainOf path following).discarded
  | resolvePath path => exact (Watching.resolvePath path).discarded
  | fullPath id => exact (watching_fullPath id).discarded

/-- Every call is a step of the books. -/
theorem stepping_call (call : Call) : Stepping call.settles call.run := by
  cases call with
  | mkdirs path permission => exact (drifting_mkdirs path permission).stepping
  | create path options =>
    exact (drifting_create path options).stepping.discarded
  | createSymlink target link permission createParent =>
    exact (drifting_createSymlink target link permission
      createParent).stepping.discarded
  | addBlock path client targets =>
    exact (stepping_addBlock path client targets).discarded
  | abandonBlock path client block =>
    exact (stepping_abandonBlock path client block).discarded
  | complete path client lastLength =>
    exact stepping_complete path client lastLength
  | append path writer => exact stepping_append path writer
  | writeInline path client length =>
    exact stepping_writeInline path client length
  | truncate path length => exact stepping_truncate path length
  | delete path recursive =>
    exact (drifting_delete path recursive).stepping.discarded
  | rename source destination =>
    exact (drifting_rename source destination).stepping
  | setQuota path inodes bytes =>
    exact (drifting_setQuota path inodes bytes).stepping
  | setTypeQuota path type limit =>
    exact (drifting_setTypeQuota path type limit).stepping
  | setStoragePolicy path policy => exact stepping_setStoragePolicy path policy
  | setReplication path replication =>
    exact stepping_setReplication path replication
  | mergeUpdates => exact stepping_mergeUpdates.discarded
  | recount => exact stepping_recount.discarded
  | query query => exact (watching_query query).drifting.stepping

end Namespace

end QuotaTree
