/-
Requests that only look at the tree.  They leave the namespace as it was; a long
one counts its pauses.
-/
import QuotaTree.Proofs.Request.Rules
import QuotaTree.Request.Status
import QuotaTree.Request.Summary

namespace QuotaTree

open Work Transaction

namespace Work

variable {α β : Type}

def Looks (work : Work α) : Prop :=
  ∀ tx, Outcome.state (work tx) = tx

namespace Looks

theorem pure (a : α) : Looks (Pure.pure a : Work α) :=
  fun _ => rfl

theorem read (reading : View → Except Error α) : Looks (Work.read reading) := by
  intro tx
  unfold Work.read
  cases reading tx.view <;> rfl

theorem frames {work : Work α} (looks : Looks work) : Frames work := by
  intro tx
  rw [looks tx]
  exact .refl tx

theorem bind {work : Work α} {next : α → Work β} (first : Looks work)
    (rest : ∀ a, Looks (next a)) : Looks (work >>= next) := by
  intro tx
  have hfirst := first tx
  change Outcome.state (EStateM.bind work next tx) = tx
  unfold EStateM.bind
  cases h : work tx with
  | ok a mid =>
    rw [h] at hfirst
    exact (rest a mid).trans hfirst
  | error error mid =>
    rw [h] at hfirst
    exact hfirst

theorem map {work : Work α} {f : α → β} (looks : Looks work) :
    Looks (f <$> work) := by
  rw [map_eq_pure_bind]
  exact looks.bind fun _ => .pure _

theorem mapM {list : List α} {work : α → Work β} (looks : ∀ a, Looks (work a)) :
    Looks (list.mapM work) := by
  induction list with
  | nil => exact .pure _
  | cons head tail ih =>
    rw [List.mapM_cons]
    refine (looks head).bind fun _ => ?_
    exact ih.bind fun _ => .pure _

theorem ite {p : Prop} [Decidable p] {left right : Work α} (hleft : Looks left)
    (hright : Looks right) : Looks (if p then left else right) := by
  split
  · exact hleft
  · exact hright

theorem summarize (ids : List InodeId) (summary : Summary) :
    Looks (Work.summarize ids summary) := by
  induction ids generalizing summary with
  | nil => exact .pure _
  | cons id rest ih =>
    unfold Work.summarize
    refine bind (read _) fun found => ?_
    cases found with
    | none => exact ih _
    | some inode => exact (ih _).bind fun _ => .pure _

end Looks

end Work

namespace Namespace

variable {ns : Namespace} {operation : Operation} {demand : LockDemand}
  {locks : LockSet} {α β : Type} {work : Work α}

theorem rollback_opened (free : ns.locks = ∅) :
    (ns.opened operation locks).rollback = ns := by
  have hrelease := @releaseAll_opened ns operation locks free
  rw [← free] at hrelease
  change { ns with
    locks := (ns.opened operation locks).base.locks.releaseAll locks } = ns
  rw [hrelease]

/-- A unit of work that has done nothing stores nothing. -/
theorem commit_opened (free : ns.locks = ∅) :
    (ns.opened operation locks).commit = ns := by
  have htable : (ns.opened operation locks).tableAfter = ns.table := by
    have hwrites : (ns.opened operation locks).writes.toList = [] :=
      Std.ExtTreeMap.toList_eq_nil_iff.2 rfl
    rw [tableAfter_eq_foldl, hwrites]
    rfl
  have hedits : ns.edits ++ (if ns.imageLoaded then [] else []) = ns.edits := by
    rw [ite_self, List.append_nil]
  refine Eq.trans ?_ (@rollback_opened ns operation locks free)
  rw [commit, htable, journal_eq]
  change Namespace.mk _ _ _ _ _ _ _ _ _ (ns.edits ++ if ns.imageLoaded then []
    else []) = _
  rw [hedits]
  rfl

theorem state_transact_of_looks (free : ns.locks = ∅) (looks : work.Looks) :
    Outcome.state (transact operation demand work ns) = ns := by
  cases h : demand.plan ns.table.view with
  | error error =>
    rw [transact_of_unplanned free h]
    rfl
  | ok locks =>
    have hlooks := looks (ns.opened operation locks)
    rw [transact_of_plan free h (keyed_of_ok looks.frames)]
    cases hwork : work (ns.opened operation locks) with
    | ok value tx =>
      rw [hwork] at hlooks
      change tx.commit = ns
      rw [show tx = _ from hlooks, commit_opened free]
    | error error tx =>
      rw [hwork] at hlooks
      change tx.rollback = ns
      rw [show tx = _ from hlooks, rollback_opened free]

/-- A request that leaves all but the number of pauses as it was. -/
def Watching (request : Request α) : Prop :=
  ∀ ns : Namespace, ns.locks = ∅ →
    ∃ pauses, Outcome.state (request ns) = { ns with pauses }

namespace Watching

theorem pure (a : α) : Watching (Pure.pure a : Request α) :=
  fun ns _ => ⟨ns.pauses, rfl⟩

theorem get : Watching (MonadState.get : Request Namespace) :=
  fun ns _ => ⟨ns.pauses, rfl⟩

theorem throw (error : Error) :
    Watching (MonadExcept.throw error : Request α) :=
  fun ns _ => ⟨ns.pauses, rfl⟩

theorem resolvePath (path : String) :
    Watching (Namespace.resolvePath path) := by
  intro ns _
  unfold Namespace.resolvePath
  cases Path.resolveReserved ns.table.view path <;> exact ⟨ns.pauses, rfl⟩

theorem pause : Watching (modify
      fun ns => { ns with pauses := ns.pauses + 1 } : Request Unit) :=
  fun ns _ => ⟨ns.pauses + 1, rfl⟩

theorem ite {p : Prop} [Decidable p] {left right : Request α}
    (hleft : Watching left) (hright : Watching right) :
    Watching (if p then left else right) := by
  split
  · exact hleft
  · exact hright

theorem bind {request : Request α} {next : α → Request β}
    (first : Watching request) (rest : ∀ a, Watching (next a)) :
    Watching (request >>= next) := by
  intro ns free
  obtain ⟨pauses, hfirst⟩ := first ns free
  change ∃ pauses, Outcome.state (EStateM.bind request next ns) = _
  unfold EStateM.bind
  cases h : request ns with
  | ok a mid =>
    rw [h] at hfirst
    obtain rfl : mid = { ns with pauses } := hfirst
    exact rest a _ free
  | error error mid =>
    rw [h] at hfirst
    exact ⟨pauses, hfirst⟩

theorem transact (looks : work.Looks) :
    Watching (Namespace.transact operation demand work) :=
  fun ns free => ⟨ns.pauses, state_transact_of_looks free looks⟩

theorem same {request : Request α} (watching : Watching request)
    {ns : Namespace} (free : ns.locks = ∅) :
    ns.Same (Outcome.state (request ns)) := by
  obtain ⟨pauses, h⟩ := watching ns free
  rw [h]
  exact ⟨rfl, rfl, rfl, rfl, rfl⟩

theorem drifting {request : Request α} (watching : Watching request) :
    Drifting request :=
  fun _ sound => (watching.same sound.locks).drifts sound

end Watching

theorem watching_status (path : String) (following : Bool) :
    Watching (status path following) :=
  .bind (.resolvePath path) fun _ => .transact <| .bind (.read _) fun _ =>
    .bind (.read _) fun _ => .pure _

theorem watching_listing (path : String) : Watching (listing path) := by
  refine .bind (.resolvePath path) fun path => .transact ?_
  refine Looks.bind (.read _) fun chain => ?_
  refine .bind (.read _) fun inode => ?_
  refine .ite ?_ (.pure _)
  exact .mapM fun id => .map (.read _)

theorem watching_quotaUsage (path : String) : Watching (quotaUsage path) :=
  .bind (.resolvePath path) fun _ => .transact <| .bind (.read _) fun _ =>
    .bind (.read _) fun _ => .pure _

theorem watching_computeUsage (path : String) : Watching (computeUsage path) :=
  .bind (.resolvePath path) fun _ => .transact <|
    .bind (.read _) fun _ => .read _

theorem watching_chainOf (path : String) (following : Bool) :
    Watching (chainOf path following) :=
  .bind (.resolvePath path) fun _ => .transact (.read _)

theorem watching_summarizeQueue (batchSize visits : Nat) (queue : List InodeId)
    (summary : Summary) :
    Watching (summarizeQueue batchSize visits queue summary) := by
  induction visits generalizing queue summary with
  | zero =>
    cases queue with
    | nil => exact .pure _
    | cons => exact .throw _
  | succ visits ih =>
    cases queue with
    | nil => exact .pure _
    | cons id rest =>
      exact .bind (.transact (.summarize _ _)) fun found =>
        .ite (ih _ _) (.bind .pause fun _ => ih _ _)

theorem watching_summary (path : String) : Watching (summary path) := by
  refine .bind (.resolvePath path) fun path => ?_
  refine .bind (.transact ?_) fun found => ?_
  · refine .bind (.read _) fun chain => ?_
    exact .bind (.read _) fun inode => .pure _
  · exact .bind .get fun ns => watching_summarizeQueue _ _ _ _

theorem watching_fullPath (id : InodeId) : Watching (fullPath id) := by
  intro ns _
  unfold fullPath
  split
  · cases ns.table.view.fullPath id <;> exact ⟨ns.pauses, rfl⟩
  · exact ⟨ns.pauses, rfl⟩

end Namespace

end QuotaTree
