/-
Which values limits have, and how the setters change them.  A value that leaves
a limit alone is never a limit itself, and memory is never limited.
-/
import QuotaTree.Request.Limits

namespace QuotaTree

/-- A value that a limit has: none, or a number that does not leave the limit
alone when it is set. -/
def Limit.Proper (limit : Int) : Prop :=
  limit = Limit.none ∨ 0 ≤ limit ∧ limit ≠ Limit.keep

theorem Limit.proper_change {present value : Int}
    (proper : Limit.Proper present) (legal : Limit.isLegal value = true) :
    Limit.Proper (Limit.change present value) := by
  unfold Limit.change
  split
  next => exact proper
  next hkeep =>
    rcases Bool.or_eq_true _ _ ▸ legal with hpos | hnone
    · exact .inr ⟨of_decide_eq_true hpos, hkeep⟩
    · exact .inl (beq_iff_eq.1 hnone)

namespace Counts

structure Legal (limits : Counts) : Prop where
  proper : ∀ dimension, Limit.Proper (limits.get dimension)
  room : limits.inodes ≠ 0
  ramDisk : limits.ramDisk = Limit.none

theorem legal_unlimited : Legal unlimited where
  proper dimension := .inl (get_splat ..)
  room := by decide
  ramDisk := rfl

def setting (inodes bytes : Int) (limits : Counts) : Counts :=
  { limits with
    inodes := Limit.change limits.inodes inodes
    bytes := Limit.change limits.bytes bytes }

def settingType (type : StorageType) (limit : Int) (limits : Counts) : Counts :=
  limits.set (.typed type) (Limit.change (limits.get (.typed type)) limit)

/-- A change of limits that leads from legal ones to legal ones, and that lifts
the limit on inodes only if it is said to. -/
structure Admissible (liftsInodes : Bool) (change : Counts → Counts) :
    Prop where
  legal : ∀ {limits}, limits.Legal → (change limits).Legal
  kept : liftsInodes = false → ∀ {limits : Counts}, limits.inodes ≠ Limit.none →
    (change limits).inodes ≠ Limit.none

theorem admissible_setting {inodes bytes : Int}
    (legal : Limit.isLegal inodes = true) (room : inodes ≠ 0)
    (legalBytes : Limit.isLegal bytes = true) :
    Admissible (inodes == Limit.none) (setting inodes bytes) where
  legal {limits} before :=
    { proper := fun dimension => by
        rcases dimension with _ | _ | type
        · exact Limit.proper_change (before.proper .inodes) legal
        · exact Limit.proper_change (before.proper .bytes) legalBytes
        · have hsame :
              (setting inodes bytes limits).get (.typed type) =
                limits.get (.typed type) := by
            cases type <;> rfl
          exact hsame ▸ before.proper (.typed type)
      room := by
        change Limit.change limits.inodes inodes ≠ 0
        unfold Limit.change
        split
        · exact before.room
        · exact room
      ramDisk := before.ramDisk }
  kept lifts limits before := by
    change Limit.change limits.inodes inodes ≠ Limit.none
    unfold Limit.change
    split
    · exact before
    · exact beq_eq_false_iff_ne.1 lifts

theorem admissible_settingType {type : StorageType} {limit : Int}
    (limitable : type ≠ .ramDisk) (legal : Limit.isLegal limit = true) :
    Admissible false (settingType type limit) where
  legal {limits} before :=
    { proper := fun dimension => by
        rw [settingType, get_set]
        split
        · exact Limit.proper_change (before.proper _) legal
        · exact before.proper dimension
      room := by
        change (settingType type limit limits).get .inodes ≠ 0
        rw [settingType, get_set, if_neg Dimension.noConfusion]
        exact before.room
      ramDisk := by
        change (settingType type limit limits).get (.typed .ramDisk) =
          Limit.none
        rw [settingType, get_set,
          if_neg fun heq => limitable (Dimension.typed.inj heq)]
        exact before.ramDisk }
  kept _ limits before := by
    change (settingType type limit limits).get .inodes ≠ Limit.none
    rw [settingType, get_set, if_neg Dimension.noConfusion]
    exact before

end Counts

namespace Directory

/-- A directory has a quota afterwards if a limit is set, or if it has had one
that is kept. -/
theorem quota_withLimits (directory : Directory) (limits cached : Counts)
    (kept : Bool) : (directory.withLimits limits cached kept).quota =
      if limits.anyLimited ∨ kept ∧ directory.quota.isSome then
        some ⟨limits, (directory.quota.map Quota.cached).getD cached⟩
      else none := by
  unfold withLimits
  cases hquota : directory.quota with
  | some quota =>
    by_cases h : limits.anyLimited = true ∨ kept = true
    · simp [h]
    · simp [h]
  | none =>
    by_cases h : limits.anyLimited = true
    · simp [h]
    · simp [h, hquota]

/-- What is in force is what was set, whether it takes a quota or not. -/
theorem limits_eq (directory : Directory) :
    directory.limits =
      (directory.quota.map Quota.limits).getD Counts.unlimited := by
  unfold limits
  cases directory.quota <;> rfl

end Directory

end QuotaTree
