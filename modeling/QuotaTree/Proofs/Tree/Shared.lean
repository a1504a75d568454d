/-
The part that two chains share.  In a tree an inode has one chain, so that two
chains run together down to the deepest inode that lies on both, and apart from
there on.
-/
import QuotaTree.Proofs.Tree.Follow

namespace QuotaTree

namespace Chain

/-- The pairs at which two lists agree from their heads on are the longest
prefix of both. -/
theorem longest_shared_prefix {α : Type} [DecidableEq α] (left right : List α) :
    let shared :=
      ((left.zip right).takeWhile fun pair => pair.1 = pair.2).map Prod.fst
    shared <+: left ∧ shared <+: right ∧
      ∀ other, other <+: left → other <+: right →
        other.length ≤ shared.length := by
  induction left generalizing right with
  | nil => simp
  | cons head tail ih =>
    cases right with
    | nil => simp
    | cons head' tail' =>
      obtain ⟨hleft, hright, hlongest⟩ := ih tail'
      by_cases h : head = head'
      · subst h
        simp only [List.zip_cons_cons, List.takeWhile_cons, decide_true,
          if_true, List.map_cons, List.prefix_cons_inj, hleft, hright, true_and]
        rintro (_ | ⟨first, others⟩) hother hother'
        · exact Nat.zero_le _
        · rw [List.cons_prefix_cons] at hother hother'
          exact Nat.succ_le_succ (hlongest others hother.2 hother'.2)
      · simp only [List.zip_cons_cons, List.takeWhile_cons, h, decide_false,
          Bool.false_eq_true, if_false, List.map_nil, List.nil_prefix, true_and]
        rintro (_ | ⟨first, others⟩) hother hother'
        · exact Nat.le_refl _
        · rw [List.cons_prefix_cons] at hother hother'
          exact absurd (hother.1.symm.trans hother'.1) h

variable {nodes : Nodes} {chain above left right : Chain} {top x : InodeId}
  {ids : List InodeId}

/-- The chains to the inodes on a chain that lie strictly below one of them, the
deepest first. -/
def beneath (chain : Chain) (top : InodeId) : List Chain :=
  chain.ancestry.takeWhile fun above => above.last ≠ top

/-- An inode lies on both chains, and nothing below it on the second one lies on
the first one. -/
structure DeepestShared (left right : Chain) (top : InodeId) : Prop where
  onFirst : top ∈ left.ids
  onSecond : top ∈ right.ids
  deepest : ∀ above ∈ right.beneath top, above.last ∉ left.ids

theorem mem_ancestry_self (chain : Chain) : chain ∈ chain.ancestry := by
  cases chain <;> exact List.mem_cons_self

theorem exists_above_of_mem (h : x ∈ chain.ids) :
    ∃ above ∈ chain.ancestry, above.last = x := by
  rw [← List.mem_reverse, ← map_last_ancestry, List.mem_map] at h
  exact h

/-- A chain begins like each of the chains to the inodes above its end. -/
theorem ids_prefix_of_mem_ancestry (h : above ∈ chain.ancestry) :
    above.ids <+: chain.ids := by
  induction chain with
  | root => exact List.mem_singleton.1 h ▸ List.prefix_refl _
  | child parent name id ih =>
    rcases List.mem_cons.1 h with rfl | h
    · exact List.prefix_refl _
    · exact (ih h).trans (List.prefix_append _ _)

theorem exists_above_of_prefix (h : ids <+: chain.ids) (hne : ids ≠ []) :
    ∃ above ∈ chain.ancestry, above.ids = ids := by
  induction chain with
  | root =>
    obtain ⟨rest, hrest⟩ := h
    obtain ⟨first, others, rfl⟩ := List.exists_cons_of_ne_nil hne
    rw [Chain.ids, List.cons_append, List.cons.injEq] at hrest
    obtain ⟨rfl, hnil⟩ := hrest
    exact ⟨.root,
      mem_ancestry_self _, by rw [(List.append_eq_nil_iff.1 hnil).1]; rfl⟩
  | child parent name id ih =>
    rcases List.prefix_concat_iff.1 h with rfl | h
    · exact ⟨_, mem_ancestry_self _, rfl⟩
    · obtain ⟨above, habove, rfl⟩ := ih h
      exact ⟨above, List.mem_cons_of_mem _ habove, rfl⟩

theorem length_le_of_mem_ancestry (h : above ∈ chain.ancestry) :
    above.length ≤ chain.length := by
  rw [← length_ids, ← length_ids]
  exact (ids_prefix_of_mem_ancestry h).length_le

/-- What lies below an inode of a chain is further down on it. -/
theorem length_lt_of_mem_beneath {shared : Chain}
    (mem : shared ∈ chain.ancestry) (h : above ∈ chain.beneath shared.last) :
    shared.length < above.length := by
  induction chain with
  | root =>
    rw [beneath, ancestry, List.mem_singleton.1 mem] at h
    simp at h
  | child parent name id ih =>
    rw [beneath, ancestry, List.takeWhile_cons] at h
    split at h
    next hlast =>
      have hmem : shared ∈ parent.ancestry := by
        rcases List.mem_cons.1 mem with rfl | hmem
        · simp at hlast
        · exact hmem
      rcases List.mem_cons.1 h with rfl | h
      · exact Nat.lt_succ_of_le (length_le_of_mem_ancestry hmem)
      · exact ih hmem h
    next => cases h

theorem Leads.of_mem_ancestry (leads : Leads nodes chain)
    (h : above ∈ chain.ancestry) : Leads nodes above := by
  induction leads with
  | root => exact List.mem_singleton.1 h ▸ .root
  | child up entry ih =>
    rcases List.mem_cons.1 h with rfl | h
    · exact .child up entry
    · exact ih h

theorem commonAncestor_eq (left right : Chain) :
    left.commonAncestor right =
      (((left.ids.zip right.ids).takeWhile fun pair => pair.1 = pair.2).map
        Prod.fst).getLast?.getD
        .root := by
  rw [List.getLast?_map, commonAncestor]
  cases ((left.ids.zip right.ids).takeWhile fun pair => pair.1 =
    pair.2).getLast? <;> rfl

/-- In a tree, the common ancestor of two chains is the deepest inode on
both. -/
theorem Leads.deepestShared (wf : nodes.WellFormed) (leads : Leads nodes left)
    (leads' : Leads nodes right) :
    DeepestShared left right (left.commonAncestor right) := by
  obtain ⟨hleft, hright, hlongest⟩ := longest_shared_prefix left.ids right.ids
  rw [commonAncestor_eq]
  generalize ((left.ids.zip right.ids).takeWhile fun pair => pair.1 =
    pair.2).map Prod.fst = shared at hleft hright hlongest
  have hroot (chain : Chain) : [InodeId.root] <+: chain.ids := by
    induction chain with
    | root => exact List.prefix_refl _
    | child parent name id ih => exact ih.trans (List.prefix_append _ _)
  have hne : shared ≠ [] := by
    rintro rfl
    have := hlongest _ (hroot left) (hroot right)
    simp at this
  obtain ⟨top, htop, rfl⟩ := exists_above_of_prefix hleft hne
  obtain ⟨top', htop', hids⟩ := exists_above_of_prefix hright hne
  have hlast : top'.last = top.last := by
    rw [← Option.some_inj, ← getLast?_ids, ← getLast?_ids, hids]
  rw [getLast?_ids, Option.getD_some]
  refine ⟨hleft.subset top.last_mem_ids, hright.subset top.last_mem_ids, ?_⟩
  intro above habove hmem
  -- an inode further down on both chains would have made the shared part longer
  have habove' : above ∈ right.ancestry := (List.takeWhile_subset _) habove
  obtain ⟨other, hother, hsame⟩ := exists_above_of_mem hmem
  obtain rfl := (leads.of_mem_ancestry hother).unique wf
    (leads'.of_mem_ancestry habove') hsame
  have hle := hlongest _ (ids_prefix_of_mem_ancestry hother)
    (ids_prefix_of_mem_ancestry habove')
  have hlt := length_lt_of_mem_beneath htop' (hlast ▸ habove)
  rw [length_ids, ← hids, length_ids] at hle
  omega

end Chain

end QuotaTree
