/-
Which quota answers for a growth.  The check of the first inodes of a chain goes
from the deepest of them up to the root, or to the exempt one, and stops at the
first quota that has no room: it names that directory and the first of its
dimensions.
-/
import QuotaTree.Proofs.Limits.Verify

namespace QuotaTree

namespace Quota

variable {quota : Quota} {growth : Counts} {exceeded : QuotaExceeded}

def refusalIn (quota : Quota) (growth : Counts) (dimension : Dimension) :
    QuotaExceeded where
  dimension := dimension
  limit := quota.limits.get dimension
  usage := quota.cached.get dimension + growth.get dimension

/-- What a quota refuses it refuses in the first dimension that has no room. -/
theorem firstExceeded_eq_some_iff :
    quota.firstExceeded growth = some exceeded ↔
      ∃ before dimension after, Dimension.all = before ++ dimension :: after ∧
        quota.exceededIn growth dimension = true ∧
        (∀ earlier ∈ before, quota.exceededIn growth earlier = false) ∧
        exceeded = quota.refusalIn growth dimension := by
  simp only [firstExceeded, Option.map_eq_some_iff,
    List.find?_eq_some_iff_append]
  constructor
  · rintro ⟨dimension, ⟨hpassed, before, after, hall, hearlier⟩, rfl⟩
    exact ⟨before, dimension, after, hall,
      hpassed, by simpa using hearlier, rfl⟩
  · rintro ⟨before, dimension, after, hall, hpassed, hearlier, rfl⟩
    exact ⟨dimension, ⟨hpassed, before, after, hall, by simpa using hearlier⟩,
      rfl⟩

end Quota

namespace Chain

/-- The chains to the first inodes of a chain, the deepest first. -/
def firsts (chain : Chain) : Nat → List Chain
  | 0 => []
  | length + 1 => chain.upTo (length + 1) :: chain.firsts length

section Places

variable {chain parent : Chain} {name : Name} {id : InodeId} {nth length : Nat}

theorem upTo_child_of_le (h : length ≤ parent.length) :
    (parent.child name id).upTo length = parent.upTo length := by
  rw [upTo, if_neg (Nat.not_lt.2 h)]

theorem firsts_child (h : length ≤ parent.length) :
    (parent.child name id).firsts length = parent.firsts length := by
  induction length with
  | zero => rfl
  | succ length ih =>
    rw [firsts, firsts, upTo_child_of_le h, ih (Nat.le_of_succ_le h)]

/-- Above an inode of a chain lie the inodes before it. -/
theorem ancestry_upTo (pos : 0 < length) (h : length ≤ chain.length) :
    (chain.upTo length).ancestry = chain.firsts length := by
  induction chain generalizing length with
  | root =>
    obtain rfl : length = 1 := Nat.le_antisymm h pos
    rfl
  | child parent name id ih =>
    rcases Nat.lt_or_eq_of_le h with hlt | rfl
    · have hle : length ≤ parent.length := Nat.le_of_lt_succ hlt
      rw [upTo_child_of_le hle, firsts_child hle, ih pos hle]
    · have habove := ih parent.length_pos (Nat.le_refl _)
      rw [upTo_of_length_le (Nat.le_refl _)] at habove
      rw [length_child, firsts, firsts_child (Nat.le_refl _),
        upTo_of_length_le (by simp), ancestry, habove]

/-- The inode at an index is the one that the chain up to it leads to. -/
theorem getElem?_ids (h : nth < chain.length) :
    chain.ids[nth]? = some (chain.upTo (nth + 1)).last := by
  induction chain with
  | root =>
    obtain rfl : nth = 0 := Nat.lt_one_iff.1 h
    rfl
  | child parent name id ih =>
    rcases Nat.lt_or_eq_of_le (Nat.le_of_lt_succ h) with hlt | rfl
    · rw [upTo_child_of_le hlt, ids,
        List.getElem?_append_left (by simpa using hlt), ih hlt]
    · rw [upTo_of_length_le (by simp), ids,
        List.getElem?_append_right (by simp)]
      simp

end Places

/-- A check of the first inodes comes to the one at an index: the exempt one is
neither there nor deeper. -/
def Reached (chain : Chain) (length : Nat) (exempt : Option InodeId)
    (nth : Nat) : Prop :=
  nth < chain.length ∧ nth < length ∧
    ∀ place id, nth ≤ place → place < length → chain.ids[place]? = some id →
      some id ≠ exempt

/-- The inode at an index has a quota with a limit that is set in a dimension
that grows, and its cached usage passes the limit with the growth. -/
def Cramped (view : View) (chain : Chain) (growth : Counts) (nth : Nat)
    (quota : Quota) (dimension : Dimension) : Prop :=
  ∃ id inode, chain.ids[nth]? = some id ∧ view.find id = .ok (some inode) ∧
    inode.quota = some quota ∧ 0 ≤ quota.limits.get dimension ∧
    0 < growth.get dimension ∧
    quota.limits.get dimension < quota.cached.get dimension +
      growth.get dimension

/-- Of the inodes that a check comes to, this is the deepest one without room,
and this is the first dimension in which it has none. -/
structure Nearest (view : View) (chain : Chain) (length : Nat) (growth : Counts)
    (exempt : Option InodeId) (nth : Nat) (quota : Quota)
    (dimension : Dimension) : Prop where
  reached : chain.Reached length exempt nth
  cramped : Cramped view chain growth nth quota dimension
  deepest : ∀ deeper, nth < deeper → chain.Reached length exempt deeper →
    ∀ quota dimension, ¬ Cramped view chain growth deeper quota dimension
  first : ∃ before after, Dimension.all = before ++ dimension :: after ∧
    ∀ earlier ∈ before, ¬ Cramped view chain growth nth quota earlier

/-- What a check answers: nothing if there is room everywhere, and otherwise the
refusal of the nearest quota. -/
inductive Verdict (view : View) (chain : Chain) (length : Nat) (growth : Counts)
    (exempt : Option InodeId) : Except Error Unit → Prop
  | granted (room : ∀ nth, chain.Reached length exempt nth →
      ∀ quota dimension, ¬ Cramped view chain growth nth quota dimension) :
      Verdict view chain length growth exempt (.ok ())
  | refused {nth : Nat} {quota : Quota} {dimension : Dimension}
      (nearest : Nearest view chain length growth exempt nth quota dimension) :
      Verdict view chain length growth exempt
        (.error (.quotaExceeded ((quota.refusalIn growth dimension).locatedAt
          (chain.upTo (nth + 1)).path)))

variable {view : View} {chain : Chain} {length nth : Nat} {growth : Counts}
  {exempt : Option InodeId} {quota : Quota} {dimension : Dimension}

def Present (view : View) (chain : Chain) : Prop :=
  ∀ id ∈ chain.ids, ∃ inode, view.find id = .ok (some inode)

/-- No quota on a chain is asked for more than can be counted. -/
def Countable (view : View) (chain : Chain) (growth : Counts) : Prop :=
  ∀ id ∈ chain.ids, ∀ inode quota, view.find id = .ok (some inode) →
    inode.quota = some quota →
    ∀ dimension, quota.cached.get dimension + growth.get dimension ≤ maxCounter

/-- What the inode at an index refuses, it refuses by its own quota. -/
theorem cramped_iff {id : InodeId} {inode : Inode}
    (countable : Countable view chain growth)
    (place : chain.ids[nth]? = some id)
    (found : view.find id = .ok (some inode)) :
    Cramped view chain growth nth quota dimension ↔
      inode.quota = some quota ∧ quota.exceededIn growth dimension = true := by
  have mem : id ∈ chain.ids := List.mem_of_getElem? place
  constructor
  · rintro ⟨other, inode', hplace, hfound, hquota, hpassed⟩
    rw [place, Option.some_inj] at hplace
    subst hplace
    rw [found, Except.ok.injEq, Option.some_inj] at hfound
    subst hfound
    have hrange := countable id mem inode quota found hquota dimension
    exact ⟨hquota, (Limit.exceededBy_iff_of_range hrange).2 hpassed⟩
  · rintro ⟨hquota, hpassed⟩
    have hrange := countable id mem inode quota found hquota dimension
    exact ⟨id, inode, place, found, hquota,
      (Limit.exceededBy_iff_of_range hrange).1 hpassed⟩

/-- What the check of one inode answers. -/
theorem verifyLast_upTo (present : Present view chain)
    (countable : Countable view chain growth) (h : nth < chain.length) :
    ((chain.upTo (nth + 1)).verifyLast view growth = .ok () ∧
        ∀ quota dimension, ¬ Cramped view chain growth nth quota dimension) ∨
      ∃ quota dimension, Cramped view chain growth nth quota dimension ∧
        (∃ before after, Dimension.all = before ++ dimension :: after ∧
          ∀ earlier ∈ before, ¬ Cramped view chain growth nth quota earlier) ∧
        (chain.upTo (nth + 1)).verifyLast view growth =
          .error (.quotaExceeded ((quota.refusalIn growth dimension).locatedAt
            (chain.upTo (nth + 1)).path)) := by
  have place := getElem?_ids h
  obtain ⟨inode, found⟩ := present _ (List.mem_of_getElem? place)
  have hget : view.get (chain.upTo (nth + 1)).last = .ok inode := by
    rw [View.get, found]
    rfl
  cases hrefusal : inode.quota.bind (·.firstExceeded growth) with
  | none =>
    left
    constructor
    · simp only [verifyLast, hget, bind, Except.bind, hrefusal]
      rfl
    · intro quota dimension hcramped
      obtain ⟨hquota, hpassed⟩ := (cramped_iff countable place found).1 hcramped
      rw [hquota, Option.bind_some, Quota.firstExceeded_eq_none_iff] at hrefusal
      rw [hrefusal dimension] at hpassed
      cases hpassed
  | some exceeded =>
    right
    obtain ⟨quota, hquota, hexceeded⟩ := Option.bind_eq_some_iff.1 hrefusal
    obtain ⟨before, dimension, after, hall, hpassed, hearlier, rfl⟩ :=
      Quota.firstExceeded_eq_some_iff.1 hexceeded
    refine ⟨quota, dimension,
      (cramped_iff countable place found).2 ⟨hquota, hpassed⟩,
      ⟨before, after, hall, fun earlier hmem hcramped => ?_⟩, ?_⟩
    · have hpassed' := ((cramped_iff countable place found).1 hcramped).2
      rw [hearlier earlier hmem] at hpassed'
      cases hpassed'
    · simp only [verifyLast, hget, bind, Except.bind, hrefusal]
      rfl

/-- A check that comes to the deepest of the first inodes asks it before all
others. -/
theorem reached_succ_iff {length : Nat} (h : length < chain.length)
    (asked : some (chain.upTo (length + 1)).last ≠ exempt) :
    chain.Reached (length + 1) exempt nth ↔ nth = length ∨
    chain.Reached length exempt nth := by
  have hplace := getElem?_ids h
  constructor
  · rintro ⟨hchain, hlength, hnone⟩
    rcases Nat.lt_or_eq_of_le (Nat.le_of_lt_succ hlength) with hlt | heq
    · exact .inr ⟨hchain, hlt,
        fun place id hle hlt' => hnone place id hle (Nat.lt_succ_of_lt hlt')⟩
    · exact .inl heq
  · have hlast : ∀ place id, length ≤ place → place < length + 1 →
        chain.ids[place]? = some id →
        some id ≠ exempt := by
      intro place id hle hlt hid
      obtain rfl : place = length := Nat.le_antisymm (Nat.le_of_lt_succ hlt) hle
      rw [hplace, Option.some_inj] at hid
      rwa [← hid]
    rintro (rfl | ⟨hchain, hlength, hnone⟩)
    · exact ⟨h, Nat.lt_succ_self _, hlast⟩
    · refine ⟨hchain, Nat.lt_succ_of_lt hlength, fun place id hle hlt hid => ?_⟩
      rcases Nat.lt_or_ge place length with hbefore | hafter
      · exact hnone place id hle hbefore hid
      · exact hlast place id hafter hlt hid

/-- A check that begins at the exempt inode comes to none. -/
theorem not_reached_of_exempt {length : Nat} (h : length < chain.length)
    (exempted : some (chain.upTo (length + 1)).last = exempt) :
    ¬ chain.Reached (length + 1) exempt nth := by
  rintro ⟨_, hlength, hnone⟩
  exact hnone length _ (Nat.le_of_lt_succ hlength) (Nat.lt_succ_self _)
    (getElem?_ids h) exempted

/-- A check that comes to more inodes answers the same if there is room at all
of these. -/
theorem Verdict.widen {result : Except Error Unit} {wider : Nat}
    (verdict : Verdict view chain length growth exempt result)
    (kept : ∀ nth, chain.Reached length exempt nth →
      chain.Reached wider exempt nth)
    (room : ∀ nth, chain.Reached wider exempt nth →
      ¬ chain.Reached length exempt nth →
      ∀ quota dimension, ¬ Cramped view chain growth nth quota dimension) :
    Verdict view chain wider growth exempt result := by
  cases verdict with
  | granted hroom =>
    apply Verdict.granted
    intro nth hreached
    by_cases hbefore : chain.Reached length exempt nth
    · exact hroom nth hbefore
    · exact room nth hreached hbefore
  | refused nearest =>
    apply Verdict.refused
    refine ⟨kept _ nearest.reached, nearest.cramped,
      fun deeper hlt hdeeper => ?_, nearest.first⟩
    by_cases hbefore : chain.Reached length exempt deeper
    · exact nearest.deepest deeper hlt hbefore
    · exact room deeper hdeeper hbefore

theorem verdict_firsts (present : Present view chain)
    (countable : Countable view chain growth) (h : length ≤ chain.length) :
    Verdict view chain length growth exempt
      (verifyEach view growth exempt (chain.firsts length)) := by
  induction length with
  | zero =>
    refine .granted fun nth hreached => ?_
    exact absurd hreached.2.1 (Nat.not_lt_zero _)
  | succ length ih =>
    rw [firsts, verifyEach]
    by_cases hexempt : some (chain.upTo (length + 1)).last = exempt
    · rw [if_pos hexempt]
      refine .granted fun nth hreached => ?_
      exact absurd hreached (not_reached_of_exempt h hexempt)
    · have hreached (nth : Nat) :=
        @reached_succ_iff chain nth exempt length h hexempt
      rw [if_neg hexempt]
      rcases verifyLast_upTo present countable h with
        ⟨hok, hroom⟩ | ⟨quota, dimension, hcramped, hfirst, herror⟩
      · rw [hok]
        apply (ih (Nat.le_of_succ_le h)).widen
        · exact fun nth hbefore => (hreached nth).2 (.inr hbefore)
        · intro nth hafter hbefore
          obtain rfl := ((hreached nth).1 hafter).resolve_right hbefore
          exact hroom
      · rw [herror]
        apply Verdict.refused
        exact {
          reached := (hreached length).2 (.inl rfl)
          cramped := hcramped
          deepest := fun deeper hlt hdeeper => absurd hdeeper.2.1 (by omega)
          first := hfirst }

/-- Nothing is checked beyond the end of the chain. -/
theorem reached_min : chain.Reached (min length chain.length) exempt nth ↔
    chain.Reached length exempt nth := by
  unfold Reached
  constructor
  · rintro ⟨hchain, hlength, hnone⟩
    refine
      ⟨hchain, by omega, fun place id hle hlt hid => hnone place id hle ?_ hid⟩
    have hplace : place < chain.length := by
      rw [← length_ids]
      exact (List.getElem?_eq_some_iff.1 hid).1
    exact Nat.lt_min.2 ⟨hlt, hplace⟩
  · rintro ⟨hchain, hlength, hnone⟩
    exact
      ⟨hchain, by omega, fun place id hle hlt => hnone place id hle (by omega)⟩

theorem Verdict.eq_ok_iff {result : Except Error Unit}
    (verdict : Verdict view chain length growth exempt result) :
    result = .ok () ↔ ∀ nth, chain.Reached length exempt nth →
      ∀ quota dimension, ¬ Cramped view chain growth nth quota dimension := by
  cases verdict with
  | granted hroom => exact ⟨fun _ => hroom, fun _ => rfl⟩
  | refused nearest =>
    constructor
    · intro h
      cases h
    · exact fun hroom => absurd nearest.cramped (hroom _ nearest.reached _ _)

/-- A check is decided by the nearest quota without room. -/
theorem verdict_verifyQuota (present : Present view chain)
    (countable : Countable view chain growth) (length : Nat)
    (exempt : Option InodeId) :
    Verdict view chain length growth exempt
      (verifyQuota view chain length growth exempt) := by
  rw [verifyQuota]
  split
  next h =>
    have hcapped :
        chain.upTo length = chain.upTo (min length chain.length) := by
      rcases Nat.le_total length chain.length with hle | hle
      · rw [Nat.min_eq_left hle]
      · rw [Nat.min_eq_right hle, upTo_of_length_le hle,
          upTo_of_length_le (Nat.le_refl _)]
    rw [hcapped, ancestry_upTo (Nat.lt_min.2 ⟨h.2, chain.length_pos⟩)
      (Nat.min_le_right _ _)]
    apply (verdict_firsts present countable (Nat.min_le_right _ _)).widen
    · exact fun nth => reached_min.1
    · exact fun nth hreached hnot => absurd (reached_min.2 hreached) hnot
  next h =>
    apply Verdict.granted
    rintro nth ⟨_, hlength, _⟩ quota dimension ⟨_, _, _, _, _, _, hgrows, _⟩
    exact h ⟨(Counts.anyPositive_iff growth).2 ⟨dimension, hgrows⟩,
      Nat.zero_lt_of_lt hlength⟩

end Chain

end QuotaTree
