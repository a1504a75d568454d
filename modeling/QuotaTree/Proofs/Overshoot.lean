/-
How far a call that makes inodes can take a directory past its limit.  Every
inode is checked on its own against the usage that is cached when the call
begins, so that a call that makes one inode stays within the limits, and one
that makes several goes past them by less than it makes.
-/
import QuotaTree.Proofs.Limits.Making

namespace QuotaTree

open Nodes

namespace Namespace

variable {ns ns' : Namespace} {config : Config} {call : Call} {α β : Type}

/-- A request that restrains what it makes, when it succeeds with nothing
pending before. -/
def Restraining (request : Request α) : Prop :=
  ∀ (ns ns' : Namespace) (a : α), ns.Sound → ns.keepsQuota = true →
    ns.books.Settled →
    request ns = .ok a ns' → ns.books.Restrained ns'.books

namespace Restraining

theorem quiet_bind {request : Request α} {next : α → Request β}
    (first : Quiet request) (rest : ∀ a, Restraining (next a)) :
    Restraining (request >>= next) := by
  intro ns ns' b sound keeps settled h
  obtain ⟨a, mid, hrequest, hrest⟩ := Outcome.bind_eq_ok.1 h
  have same : ns.Same mid := by
    have hsame := first ns
    rwa [hrequest] at hsame
  rw [← same.books] at settled ⊢
  exact rest a mid ns' b (same.sound sound)
    (same.keepsQuota.trans keeps) settled hrest

theorem bind_quiet {request : Request α} {next : α → Request β}
    (first : Restraining request) (rest : ∀ a, Quiet (next a)) :
    Restraining (request >>= next) := by
  intro ns ns' b sound keeps settled h
  obtain ⟨a, mid, hrequest, hrest⟩ := Outcome.bind_eq_ok.1 h
  have same : mid.Same ns' := by
    have hsame := rest a mid
    rwa [hrest] at hsame
  rw [same.books]
  exact first ns mid a sound keeps settled hrequest

theorem guarded {p : Prop} [Decidable p] {error : Error}
    {rest : PUnit → Request α} (accepted : Restraining (rest ⟨⟩)) :
    Restraining (if p then MonadExcept.throw error >>= rest else rest ⟨⟩) := by
  split
  · intro ns ns' a _ _ _ h
    cases h
  · exact accepted

theorem transact {operation : Operation} {demand : LockDemand} {work : Work α}
    (frames : work.Frames)
    (restrained : ∀ {tx tx' : Transaction} {a : α}, tx.Ready →
      tx.keepsQuota = true →
      tx.books.Settled → work tx = .ok a tx' → tx.books.Restrained tx'.books) :
    Restraining (Namespace.transact operation demand work) := by
  intro ns ns' a sound keeps settled h
  obtain ⟨locks, tx, _, hwork, rfl⟩ := exists_of_transact sound.locks h
  have ext := frames (ns.opened operation locks)
  rw [hwork] at ext
  change (ns.opened operation locks).Extends tx at ext
  rw [books_commit sound ext]
  rw [← @books_opened ns operation locks] at settled ⊢
  exact restrained (ready_opened sound.books) keeps settled hwork

theorem discarded {request : Request α} (restraining : Restraining request) :
    Restraining (discard request) := by
  intro ns ns' a sound keeps settled h
  obtain ⟨answer, h⟩ := Outcome.discard_eq_ok.1 h
  exact restraining ns ns' answer sound keeps settled h

end Restraining

theorem restraining_create (path : String) (options : CreateOptions) :
    Restraining (create path options) := by
  refine .quiet_bind (.resolvePath path) fun path => ?_
  refine .quiet_bind .get fun ns => ?_
  extract_lets config replication blockSize rest
  refine .guarded (.guarded (.bind_quiet (.transact
    (.createFile _ _ _ _) Work.restrained_createFile) fun answer => ?_))
  exact (Quiet.releaseBlocks _).bind fun _ => .pure _

theorem restraining_createSymlink (target link : String)
    (permission : Permission) (createParent : Bool) :
    Restraining (createSymlink target link permission createParent) := by
  unfold createSymlink
  extract_lets rest
  exact .guarded (.quiet_bind (.resolvePath link) fun _ =>
    .transact (.symlinkPath _ _ _ _) Work.restrained_symlinkPath)

end Namespace

def Call.isMaking : Call → Bool
  | .mkdirs .. | .create .. | .createSymlink .. => true
  | _ => false

namespace Namespace

variable {ns ns' : Namespace} {config : Config} {call : Call}

theorem restraining_call (making : call.isMaking = true) :
    Restraining call.run := by
  cases call with
  | mkdirs path permission =>
    exact .quiet_bind (.resolvePath path) fun _ =>
      .transact (.makePath _ _) Work.restrained_makePath
  | create path options => exact (restraining_create path options).discarded
  | createSymlink target link permission createParent =>
    exact
      (restraining_createSymlink target link permission createParent).discarded
  | _ => cases making

/-- With no updates in the ledger nothing is pending. -/
theorem settled_of_size (h : ns.ledger.size = 0) : ns.books.Settled := by
  intro id
  have hempty : ns.ledger.updates = ∅ :=
    Std.ExtTreeMap.eq_empty_iff_size_eq_zero.2 h
  have hnone : ns.ledger.updatesOf id = [] := by simp [Ledger.updatesOf, hempty]
  change ns.ledger.pendingAt id = 0
  rw [Ledger.pendingAt_eq, hnone]
  rfl

/-- A call leaves every directory within its limit on inodes if it has put any
into it. -/
def StaysWithin (before after : Namespace) : Prop :=
  ∀ id inode quota used used', after.table.find? id = some inode →
    inode.quota = some quota →
    0 ≤ quota.limits.inodes → before.table.view.usage id = .ok used →
    after.table.view.usage id = .ok used' → used.inodes < used'.inodes →
    used'.inodes ≤ quota.limits.inodes

/-- A directory into which a call has put inodes was below its limit before, and
has passed it by fewer than there were identities given out: by none when the
call has made one inode. -/
def BoundsOvershoot (before after : Namespace) : Prop :=
  ∀ id inode quota used', after.table.find? id = some inode →
    inode.quota = some quota →
    0 ≤ quota.limits.inodes → after.table.view.usage id = .ok used' →
    used'.inodes ≤ maxCounter →
    ∃ used, before.table.view.usage id = .ok used ∧
      (used.inodes < used'.inodes → used.inodes < quota.limits.inodes ∧
        used'.inodes - quota.limits.inodes <
          after.table.next.val - before.table.next.val)

/-- A quota that has room for one more inode has cached less than its limit. -/
theorem cached_lt_of_room {quota : Quota}
    (room : quota.firstExceeded Counts.oneInode = none)
    (limited : 0 ≤ quota.limits.inodes)
    (range : quota.cached.inodes < maxCounter) :
    quota.cached.inodes < quota.limits.inodes := by
  have hroom :
      Limit.exceededBy quota.limits.inodes quota.cached.inodes 1 = false :=
    (quota.firstExceeded_eq_none_iff _).1 room .inodes
  by_contra hfull
  have hclamp :
      clampCounter (quota.cached.inodes + 1) = quota.cached.inodes + 1 :=
    clampCounter_of_range (by unfold minCounter; omega) (by omega)
  simp only [Limit.exceededBy, hclamp, Bool.and_eq_false_iff,
    decide_eq_false_iff_not] at hroom
  omega

/-- The usage of a directory is what its quota has cached and what is pending
below it. -/
theorem Keeping.usage (keeping : Keeping config ns) {id : InodeId}
    {inode : Inode} {quota : Quota} (live : ns.table.find? id = some inode)
    (hquota : inode.quota = some quota) :
    ∃ ids, ns.books.nodes.Spans id ids ∧
      ns.table.view.usage id =
        .ok (quota.cached + ∑ x ∈ ids, ns.books.pending x) := by
  obtain ⟨ids, spans, husage⟩ :=
    InodeTable.exists_usage_sum keeping.sound.books.wellFormed live
  have hbalanced := keeping.balanced.cached_add_pending
    ((quota_of_live live).trans hquota) spans
  exact ⟨ids, spans, husage.trans (congrArg _ hbalanced.symm)⟩

/-- With nothing pending a quota has cached just what is used. -/
theorem Keeping.usage_of_settled (keeping : Keeping config ns)
    (settled : ns.books.Settled) {id : InodeId} {inode : Inode} {quota : Quota}
    (live : ns.table.find? id = some inode)
    (hquota : inode.quota = some quota) :
    ns.table.view.usage id = .ok quota.cached := by
  obtain ⟨ids, _, husage⟩ := keeping.usage live hquota
  rwa [Finset.sum_eq_zero fun x _ => settled x, Counts.add_zero] at husage

theorem Keeping.boundsOvershoot (keeping : Keeping config ns)
    (keeping' : Keeping config ns') (settled : ns.books.Settled)
    (restrained : ns.books.Restrained ns'.books) : ns.BoundsOvershoot ns' := by
  intro id inode quota used' live hquota hlimit hused' hrange
  have hquota' := (quota_of_live live).trans hquota
  obtain ⟨ids', spans', husage'⟩ := keeping'.usage live hquota
  obtain rfl := Except.ok.inj (husage'.symm.trans hused')
  obtain ⟨old, live', holdquota⟩ := quota_eq_some.1 (restrained.quota hquota')
  refine ⟨quota.cached, keeping.usage_of_settled settled live' holdquota,
    fun hraised => ?_⟩
  have hgrown : (quota.cached + ∑ x ∈ ids', ns'.books.pending x).inodes =
      quota.cached.inodes + (∑ x ∈ ids', ns'.books.pending x).inodes :=
    rfl
  have hroom : quota.firstExceeded Counts.oneInode = none := by
    have hpending : ∃ x ∈ ids', 0 < (ns'.books.pending x).inodes := by
      by_contra hnone
      push Not at hnone
      have hsum := Finset.sum_nonpos hnone
      rw [← Counts.inodes_sum] at hsum
      omega
    obtain ⟨x, hx, hpending⟩ := hpending
    exact restrained.room hpending ((spans' x).1 hx) hquota'
  have hlt := cached_lt_of_room hroom hlimit (by omega)
  have hcharged := restrained.charged ids'
  change _ + (ns.table.next.val : Int) ≤ ns'.table.next.val at hcharged
  omega

/-- In every run that keeps quotas, a call that makes inodes while no updates
are pending puts them only where there was room for one, and passes no limit by
as many as it makes. -/
theorem boundsOvershoot_making (config : Config)
    (enabled : config.quotaEnabled = true) (calls : List Call) (call : Call)
    (making : call.isMaking = true)
    (fits : ∀ made, made <+: calls ++ [call] →
      ((fresh config).after (made.map Call.run)).Fits)
    (settled : ((fresh config).after (calls.map Call.run)).ledger.size = 0)
    (done : call.run ((fresh config).after (calls.map Call.run)) = .ok () ns') :
    ((fresh config).after (calls.map Call.run)).BoundsOvershoot ns' := by
  have keeping := keeping_after enabled calls fun made hmade =>
    fits made (hmade.trans (List.prefix_append _ _))
  have keeping' := keeping_after enabled (calls ++ [call]) fits
  rw [List.map_append, after_append] at keeping'
  have hstate :
      ((fresh config).after (calls.map Call.run)).after ([call].map Call.run) =
        ns' := congrArg Outcome.state done
  rw [hstate] at keeping'
  have hsettled := settled_of_size settled
  exact keeping.boundsOvershoot keeping' hsettled (restraining_call making _ ns'
    () keeping.sound (keeping.keepsQuota enabled) hsettled done)

/-- A directory that may hold itself and one more inode, when all that was
pending is merged. -/
def tightRun : List Call :=
  [.mkdirs "/q" {}, .setQuota "/q" 2 (-1), .mergeUpdates]

def deepCall : Call :=
  .mkdirs "/q/a/b" {}

theorem deepCall_done :
    ∃ ns', deepCall.run ((fresh {}).after (tightRun.map Call.run)) =
        .ok () ns' := by
  have hdone :
      Outcome.error? (deepCall.run ((fresh {}).after (tightRun.map Call.run))) =
        none := by
    decide +kernel
  obtain ⟨_, ns', hdone⟩ := Outcome.error?_eq_none.1 hdone
  exact ⟨ns', hdone⟩

theorem boundsOvershoot_tightRun :
    ∃ ns', deepCall.run ((fresh {}).after (tightRun.map Call.run)) =
        .ok () ns' ∧
      ((fresh {}).after (tightRun.map Call.run)).BoundsOvershoot ns' := by
  have fits : ∀ made ∈ (tightRun ++ [deepCall]).inits,
      ((fresh {}).after (made.map Call.run)).Fits := by
    decide +kernel
  obtain ⟨ns', hdone⟩ := deepCall_done
  exact ⟨ns', hdone,
    boundsOvershoot_making {} rfl tightRun deepCall rfl (fun made hmade =>
      fits made ((List.mem_inits _ _).2 hmade)) (by decide +kernel) hdone⟩

/-- Each of the two has room by itself, and together they pass the limit. -/
theorem not_staysWithin_tightRun :
    ∃ ns', deepCall.run ((fresh {}).after (tightRun.map Call.run)) =
        .ok () ns' ∧
      ((fresh {}).after (tightRun.map Call.run)).ledger.size = 0 ∧
      ¬ ((fresh {}).after (tightRun.map Call.run)).StaysWithin ns' := by
  obtain ⟨ns', hdone⟩ := deepCall_done
  refine ⟨ns', hdone, by decide +kernel, fun within => ?_⟩
  have hbefore :
      ((fresh {}).after (tightRun.map Call.run)).table.view.usage ⟨2⟩ =
        .ok { inodes := 1 } := by
    decide +kernel
  have hafter :
      (Outcome.state (deepCall.run
        ((fresh {}).after (tightRun.map Call.run)))).table.view.usage ⟨2⟩ =
        .ok { inodes := 3 } := by
    decide +kernel
  have hquota :
      (Outcome.state (deepCall.run
        ((fresh {}).after (tightRun.map Call.run)))).table.tree.quota ⟨2⟩ =
        some ⟨{ Counts.unlimited with inodes := 2 }, { inodes := 1 }⟩ := by
    decide +kernel
  rw [hdone] at hafter hquota
  obtain ⟨inode, live, hquota⟩ := quota_eq_some.1 hquota
  exact absurd (within ⟨2⟩ inode _ _ _ live hquota (by decide) hbefore hafter
    (by decide)) (by decide)

end Namespace

end QuotaTree
