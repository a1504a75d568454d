/-
What the check of a growth against the quotas along a chain comes to: it fails
with the refusal of the deepest quota that has no room, and succeeds when every
quota has.
-/
import QuotaTree.Proofs.Tree.Chain
import QuotaTree.Proofs.Usage.Books
import QuotaTree.Transaction.Accounting

namespace QuotaTree

open Nodes

/-- In the range of counters, passing a limit is a matter of the plain sum. -/
theorem Limit.exceededBy_iff_of_range {limit used growth : Int}
    (range : used + growth ≤ maxCounter) : exceededBy limit used growth = true ↔
    0 ≤ limit ∧ 0 < growth ∧ limit < used + growth := by
  simp only [exceededBy, Bool.and_eq_true, decide_eq_true_eq, and_assoc]
  unfold clampCounter minCounter maxCounter at *
  omega

namespace Chain

variable {view : View} {nodes : Nodes} {growth : Counts} {chain : Chain}
  {chains : List Chain} {quota : Quota}

theorem verifyLast_eq_ok :
    chain.verifyLast view growth = .ok () ↔
      ∃ inode, view.get chain.last = .ok inode ∧
        inode.quota.bind (·.firstExceeded growth) = none := by
  unfold verifyLast
  simp only [Outcome.except_bind_eq_ok]
  refine exists_congr fun inode => ?_
  refine and_congr_right fun _ => ?_
  cases h : inode.quota.bind (·.firstExceeded growth) <;> simp

theorem verifyEach_eq_ok :
    verifyEach view growth none chains = .ok () ↔
      ∀ chain ∈ chains, chain.verifyLast view growth = .ok () := by
  induction chains with
  | nil => simp [verifyEach, pure, Except.pure]
  | cons chain above ih =>
    rw [verifyEach, if_neg (by simp), Outcome.except_bind_eq_ok,
      List.forall_mem_cons, ← ih]
    exact ⟨fun ⟨_, hlast, habove⟩ => ⟨hlast, habove⟩,
      fun ⟨hlast, habove⟩ => ⟨(), hlast, habove⟩⟩

/-- Every quota on a chain that has been verified has room for the growth. -/
theorem not_exceeded_of_verified (reads : view.Reads nodes)
    (h : verifyQuota view chain chain.length growth none = .ok ()) {x : InodeId}
    (hx : x ∈ chain.ids) (hquota : nodes.quota x = some quota) :
    quota.firstExceeded growth = none := by
  by_cases hpositive : growth.anyPositive = true
  · rw [verifyQuota, if_pos ⟨hpositive, chain.length_pos⟩,
      upTo_of_length_le (Nat.le_refl _), verifyEach_eq_ok] at h
    have hmem : x ∈ chain.ancestry.map last := by
      rw [map_last_ancestry, List.mem_reverse]
      exact hx
    obtain ⟨above, habove, rfl⟩ := List.mem_map.1 hmem
    obtain ⟨inode, hget, hnone⟩ := verifyLast_eq_ok.1 (h above habove)
    rw [quota_of_live (reads.get hget)] at hquota
    rwa [hquota, Option.bind_some] at hnone
  · exact quota.firstExceeded_eq_none_of_not_anyPositive
      (Bool.not_eq_true _ ▸ hpositive)

/-- The chains to the inodes above the end of a chain, the deepest first. -/
def above : Chain → List Chain
  | .root => []
  | .child parent _ _ => parent.ancestry

theorem ancestry_eq (chain : Chain) :
    chain.ancestry = chain :: chain.above := by
  cases chain <;> rfl

/-- Why a growth is refused: the deepest quota that has no room for it, if there
is one. -/
def refusal (nodes : Nodes) (growth : Counts) (chains : List Chain) :
    Option QuotaExceeded :=
  chains.findSome? fun chain =>
    ((nodes.quota chain.last).bind (·.firstExceeded growth)).map
      (·.locatedAt chain.path)

theorem refusal_cons :
    refusal nodes growth (chain :: chains) =
      match (nodes.quota chain.last).bind (·.firstExceeded growth) with
      | some exceeded => some (exceeded.locatedAt chain.path)
      | none => refusal nodes growth chains := by
  rw [refusal, List.findSome?_cons]
  cases (nodes.quota chain.last).bind (·.firstExceeded growth) <;> rfl

def Readable (view : View) (chain : Chain) : Prop :=
  ∃ inode, view.get chain.last = .ok inode

theorem verifyEach_eq (reads : view.Reads nodes)
    (readable : ∀ chain ∈ chains, chain.Readable view) :
    verifyEach view growth none chains =
      match refusal nodes growth chains with
      | some exceeded => .error (.quotaExceeded exceeded)
      | none => .ok () := by
  induction chains with
  | nil => rfl
  | cons chain above ih =>
    obtain ⟨inode, hget⟩ := readable chain List.mem_cons_self
    have ih := ih fun other h => readable other (List.mem_cons_of_mem _ h)
    rw [verifyEach, if_neg (by simp), verifyLast, hget, refusal_cons,
      quota_of_live (reads.get hget)]
    change ((match inode.quota.bind (·.firstExceeded growth) with
      | some exceeded => throw (.quotaExceeded (exceeded.locatedAt chain.path))
      | none => pure () : Except Error Unit) >>= _) = _
    cases inode.quota.bind (·.firstExceeded growth) with
    | some exceeded => rfl
    | none => exact ih

theorem refusal_of_not_anyPositive (h : growth.anyPositive = false) :
    refusal nodes growth chains = none := by
  rw [refusal, List.findSome?_eq_none_iff]
  intro chain _
  cases hquota : nodes.quota chain.last with
  | none => rfl
  | some quota => simp [quota.firstExceeded_eq_none_of_not_anyPositive h]

theorem verifyQuota_child_eq {name : Name} {id : InodeId}
    (reads : view.Reads nodes)
    (readable : ∀ above ∈ chain.ancestry, above.Readable view) :
    verifyQuota view (chain.child name id) chain.length growth none =
      match refusal nodes growth chain.ancestry with
      | some exceeded => .error (.quotaExceeded exceeded)
      | none => .ok () := by
  rw [verifyQuota, upTo_child_length]
  split
  next => exact verifyEach_eq reads readable
  next h =>
    have hnone : growth.anyPositive = false := by
      rw [← Bool.not_eq_true]
      exact fun hpositive => h ⟨hpositive, chain.length_pos⟩
    rw [refusal_of_not_anyPositive hnone]
    rfl

/-- A walk reads every inode above the one it ends at. -/
theorem readable_of_descend {path : String} {start : Chain}
    {names rest : List Name}
    (h : descend view path start names = .ok (chain, rest))
    (before : ∀ above ∈ start.above, above.Readable view) :
    ∀ above ∈ chain.above, above.Readable view := by
  induction names generalizing start with
  | nil =>
    rw [descend, Outcome.except_pure_eq_ok] at h
    cases h
    exact before
  | cons name names ih =>
    obtain ⟨inode, hget, ⟨id, _, hrest⟩ | ⟨_, _, rfl, rfl⟩⟩ :=
      descend_cons_eq_ok.1 h
    · refine ih hrest ?_
      intro above habove
      change above ∈ start.ancestry at habove
      rw [ancestry_eq, List.mem_cons] at habove
      rcases habove with rfl | habove
      · exact ⟨inode, hget⟩
      · exact before above habove
    · exact before

theorem readable_of_resolve {path : String}
    (h : resolve view path false = .ok chain) :
    ∀ above ∈ chain.above, above.Readable view := by
  obtain ⟨names, _, hdescend⟩ := resolveExisting_eq_ok.1 (resolve_eq_ok.1 h)
  exact readable_of_descend hdescend (by simp [above])

end Chain

end QuotaTree
