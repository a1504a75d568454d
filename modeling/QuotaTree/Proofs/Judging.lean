/-
The check of a growth against the quotas of a chain.  It passes exactly if every
directory that it comes to has room, and otherwise names the nearest one that
has none; with less growth or relaxed limits it passes where it passed before.
-/
import QuotaTree.Proofs.Limits.Nearest

namespace QuotaTree

namespace Limit

/-- A limit is as it was, or it was set and has been raised or lifted. -/
def Relaxes (old new : Int) : Prop :=
  new = old ∨ 0 ≤ old ∧ (old ≤ new ∨ new < 0)

end Limit

namespace Chain

variable {view : View} {chain : Chain} {length nth : Nat} {growth : Counts}
  {exempt : Option InodeId} {quota : Quota} {dimension : Dimension}

/-- On a chain the quotas are as in another view, but for limits that have been
raised or lifted. -/
def Relaxes (old new : View) (chain : Chain) : Prop :=
  ∀ id ∈ chain.ids, ∃ before after, old.find id = .ok (some before) ∧
    new.find id = .ok (some after) ∧ ∀ quota, after.quota = some quota →
    ∃ prior,
      before.quota = some prior ∧ quota.cached = prior.cached ∧
      ∀ dimension,
        Limit.Relaxes (prior.limits.get dimension) (quota.limits.get dimension)

namespace Relaxes

variable {new : View} {less : Counts}

theorem present (relaxes : Relaxes view new chain) : Present new chain := by
  intro id hid
  obtain ⟨_, after, _, hafter, _⟩ := relaxes id hid
  exact ⟨after, hafter⟩

theorem countable (relaxes : Relaxes view new chain)
    (le : ∀ dimension, less.get dimension ≤ growth.get dimension)
    (countable : Countable view chain growth) : Countable new chain less := by
  intro id hid inode quota found hquota dimension
  obtain ⟨before, after, hbefore, hafter, hquotas⟩ := relaxes id hid
  rw [found, Except.ok.injEq, Option.some_inj] at hafter
  subst hafter
  obtain ⟨prior, hprior, hcached, _⟩ := hquotas quota hquota
  rw [hcached]
  exact (add_le_add_right (le dimension) _).trans
    (countable id hid before prior hbefore hprior dimension)

end Relaxes

/-- Where there is no room for less under relaxed limits, there was none
before. -/
theorem Cramped.of_relaxes {new : View} {less : Counts}
    (relaxes : Relaxes view new chain)
    (le : ∀ dimension, less.get dimension ≤ growth.get dimension)
    (cramped : Cramped new chain less nth quota dimension) :
    ∃ prior, Cramped view chain growth nth prior dimension := by
  obtain ⟨id, inode, place, found, hquota, hlimited, hgrows, hpassed⟩ := cramped
  obtain ⟨before, after, hbefore, hafter, hquotas⟩ :=
    relaxes id (List.mem_of_getElem? place)
  rw [found, Except.ok.injEq, Option.some_inj] at hafter
  subst hafter
  obtain ⟨prior, hprior, hcached, hlimits⟩ := hquotas quota hquota
  have hlimit := hlimits dimension
  have hless := le dimension
  rw [hcached] at hpassed
  unfold Limit.Relaxes at hlimit
  exact ⟨prior, id, before, place, hbefore,
    hprior, by omega, by omega, by omega⟩

/-- A check refuses a growth exactly if an inode that it comes to has no room,
and then names the deepest one and its first dimension; less growth or relaxed
limits are not refused either. -/
structure Judges (view : View) (chain : Chain) (length : Nat) (growth : Counts)
    (exempt : Option InodeId) : Prop where
  granted_iff : verifyQuota view chain length growth exempt = .ok () ↔
    ∀ nth, chain.Reached length exempt nth →
      ∀ quota dimension, ¬ Cramped view chain growth nth quota dimension
  refused : verifyQuota view chain length growth exempt ≠ .ok () →
    ∃ nth quota dimension,
      Nearest view chain length growth exempt nth quota dimension ∧
      verifyQuota view chain length growth exempt = .error (.quotaExceeded
        { dimension
          limit := quota.limits.get dimension
          usage := quota.cached.get dimension + growth.get dimension
          path := some (chain.upTo (nth + 1)).path })
  monotone :
    ∀ {new less}, (∀ dimension, less.get dimension ≤ growth.get dimension) →
    Relaxes view new chain →
    verifyQuota view chain length growth exempt = .ok () →
    verifyQuota new chain length less exempt = .ok ()

/-- On every chain whose inodes are there, up to any index and any exempt inode,
a check judges a growth by the nearest quota without room. -/
theorem judges_verifyQuota (present : Present view chain)
    (countable : Countable view chain growth) (length : Nat)
    (exempt : Option InodeId) : Judges view chain length growth exempt where
  granted_iff := (verdict_verifyQuota present countable length exempt).eq_ok_iff
  refused hrefused := by
    have verdict := verdict_verifyQuota present countable length exempt
    generalize verifyQuota view chain length growth exempt =
      result at verdict hrefused
    cases verdict with
    | granted hroom => exact absurd rfl hrefused
    | refused nearest => exact ⟨_, _, _, nearest, rfl⟩
  monotone {new less} le relaxes hgranted := by
    have hroom :=
      (verdict_verifyQuota present countable length exempt).eq_ok_iff.1 hgranted
    have verdict := verdict_verifyQuota relaxes.present
      (relaxes.countable le countable) length exempt
    apply verdict.eq_ok_iff.2
    intro nth hreached quota dimension hcramped
    obtain ⟨prior, hprior⟩ := hcramped.of_relaxes relaxes le
    exact hroom nth hreached prior dimension hprior

section Strained

instance : Decidable (Present view chain) :=
  decidable_of_iff
    (∀ id ∈ chain.ids,
      ((view.find id).toOption.bind fun inode => inode).isSome) <| by
    unfold Present
    apply forall_congr'
    intro id
    apply imp_congr_right
    intro _
    rcases view.find id with error | inode
    · simp [Except.toOption]
    · cases inode <;> simp [Except.toOption]

instance : Decidable (Countable view chain growth) :=
  decidable_of_iff
    (∀ id ∈ chain.ids,
      (((view.find id).toOption.bind fun inode => inode).bind Inode.quota).all
        fun quota =>
        Dimension.all.all fun dimension =>
          decide (quota.cached.get dimension + growth.get dimension ≤
            maxCounter)) <| by
    unfold Countable
    apply forall_congr'
    intro id
    apply imp_congr_right
    intro _
    rcases view.find id with error | inode
    · simp [Except.toOption]
    · rcases inode with _ | inode
      · simp [Except.toOption]
      · simp only [Except.toOption, Option.bind_some, Except.ok.injEq,
          Option.some_inj, Option.all_eq_true, List.all_eq_true,
          Dimension.mem_all, decide_eq_true_eq, forall_const]
        constructor
        · rintro h _ quota rfl hquota
          exact h quota hquota
        · exact fun h quota hquota => h inode quota rfl hquota

def limitedDirectory (id : InodeId) (limits cached : Counts) : Inode :=
  { InodeTable.newRoot
    {} with id, content := .directory { quota := some ⟨limits, cached⟩ } }

/-- A directory that is short of bytes, with one below it that is short of fast
ones. -/
def strainedView : View where
  find id :=
    if id = .root then .ok (some (InodeTable.newRoot {}))
    else if id = ⟨2⟩ then
      .ok (some (limitedDirectory id { Counts.unlimited with bytes := 250 }
        { bytes := 200 }))
    else if id = ⟨3⟩ then
      .ok (some (limitedDirectory id
        { Counts.unlimited with bytes := 900, ssd := 50, disk := 9 }
        { ssd := 40 }))
    else .ok none
  size := 3

def strainedChain : Chain :=
  .child (.child .root (Name.ofText "q") ⟨2⟩) (Name.ofText "d") ⟨3⟩

def strainingGrowth : Counts :=
  { bytes := 100, ssd := 60, disk := 60 }

theorem judges_strainedChain :
    Present strainedView strainedChain ∧
    Countable strainedView strainedChain strainingGrowth ∧
      Judges strainedView strainedChain 3 strainingGrowth (some .root) := by
  have present : Present strainedView strainedChain := by decide +kernel
  have countable : Countable strainedView strainedChain strainingGrowth := by
    decide +kernel
  exact ⟨present, countable,
    judges_verifyQuota present countable 3 (some .root)⟩

/-- The order in which dimensions are looked at. -/
example : Dimension.all = [.inodes, .bytes, .typed .ramDisk, .typed .ssd,
      .typed .disk, .typed .archive] := rfl

/-- Both directories have no room, and the lower one has none of two kinds. -/
example : verifyQuota strainedView strainedChain 3
    strainingGrowth (some .root) =
    .error (.quotaExceeded ⟨.typed .ssd, 50, 100, some "/q/d"⟩) := by
  rfl

example : verifyQuota strainedView strainedChain 2 strainingGrowth (some ⟨3⟩) =
    .error (.quotaExceeded ⟨.bytes, 250, 300, some "/q"⟩) := by
  rfl

end Strained

end Chain

end QuotaTree
