/-
Summing up a subtree in batches.  What has been visited and what is queued make
up an ever larger part of the subtree, each inode once; when the queue is empty
the whole subtree has been visited.
-/
import QuotaTree.Proofs.Request.Following
import QuotaTree.Request.Summary

namespace QuotaTree

namespace Summary

variable {summary : Summary} {inode other : Inode}

/-- The order in which inodes are counted in does not matter. -/
theorem add_right_comm :
    (summary.add inode).add other = (summary.add other).add inode := by
  unfold add
  cases inode.content <;> cases other.content
  all_goals simp only [Summary.mk.injEq, true_and, and_true]
  all_goals grind [Counts.add_comm, Counts.add_assoc]

instance : RightCommutative Summary.add :=
  ⟨fun _ _ _ => add_right_comm⟩

def addAll (summary : Summary) (nodes : Nodes) (ids : List InodeId) : Summary :=
  (ids.filterMap nodes).foldl add summary

theorem addAll_append (nodes : Nodes) (first second : List InodeId) :
    summary.addAll nodes (first ++ second) =
      (summary.addAll nodes first).addAll nodes second := by
  rw [addAll, List.filterMap_append, List.foldl_append]
  rfl

theorem addAll_perm {nodes : Nodes} {first second : List InodeId}
    (h : first.Perm second) :
    summary.addAll nodes first = summary.addAll nodes second :=
  (h.filterMap nodes).foldl_eq _

end Summary

namespace Nodes

variable {nodes : Nodes} {top : InodeId} {done queue batch rest : List InodeId}

def entriesOf (nodes : Nodes) (ids : List InodeId) : List InodeId :=
  (ids.filterMap nodes).flatMap Inode.children

theorem mem_entriesOf (wf : nodes.WellFormed) {x : InodeId} :
    x ∈ nodes.entriesOf batch ↔ ∃ id ∈ batch, nodes.HasParent x id := by
  simp only [entriesOf, List.mem_flatMap, List.mem_filterMap]
  constructor
  · rintro ⟨inode, ⟨id, hid, live⟩, hx⟩
    exact ⟨id, hid, (wf.mem_children live).1 hx⟩
  · rintro ⟨id, hid, hparent⟩
    obtain ⟨inode, live, _⟩ := wf.live_parent hparent
    exact ⟨inode, ⟨id, hid, live⟩, (wf.mem_children live).2 hparent⟩

theorem entriesOf_cons_of_live {id : InodeId} {inode : Inode}
    (live : nodes id = some inode) :
    nodes.entriesOf (id :: batch) =
      inode.children ++ nodes.entriesOf batch := by
  rw [entriesOf, List.filterMap_cons_some live, List.flatMap_cons]
  rfl

theorem entriesOf_cons_of_gone {id : InodeId} (gone : nodes id = none) :
    nodes.entriesOf (id :: batch) = nodes.entriesOf batch := by
  rw [entriesOf, List.filterMap_cons_none gone]
  rfl

theorem entriesOf_nodup (wf : nodes.WellFormed) (nodup : batch.Nodup) :
    (nodes.entriesOf batch).Nodup := by
  induction batch with
  | nil => exact List.nodup_nil
  | cons id batch ih =>
    obtain ⟨hnot, hnodup⟩ := List.nodup_cons.1 nodup
    cases live : nodes id with
    | none =>
      rw [entriesOf_cons_of_gone live]
      exact ih hnodup
    | some inode =>
      rw [entriesOf_cons_of_live live, List.nodup_append']
      refine ⟨wf.children_nodup live, ih hnodup, fun x hx hx' => ?_⟩
      obtain ⟨other, hother, hparent⟩ := (mem_entriesOf wf).1 hx'
      rw [wf.mem_children live] at hx
      exact hnot (hx.unique hparent ▸ hother)

/-- A part of a subtree that has been visited, and a queue that holds the
entries that are still missing. -/
structure Spread (nodes : Nodes) (top : InodeId) (done queue : List InodeId) :
    Prop where
  nodup : (done ++ queue).Nodup
  below : ∀ x ∈ done ++ queue, nodes.Under top x
  start : top ∈ done ++ queue
  origin :
    ∀ x ∈ done ++ queue, x = top ∨ ∃ parent ∈ done, nodes.HasParent x parent
  closed : ∀ parent ∈ done, ∀ x, nodes.HasParent x parent → x ∈ done ++ queue

namespace Spread

theorem init (nodes : Nodes) (top : InodeId) : nodes.Spread top [] [top] where
  nodup := List.nodup_singleton top
  below x hx := by
    rw [List.nil_append, List.mem_singleton] at hx
    exact hx ▸ .refl nodes top
  start := List.mem_singleton_self top
  origin x hx := .inl (List.mem_singleton.1 hx)
  closed := by simp

/-- When nothing is queued all of the subtree has been visited. -/
theorem mem_iff (spread : nodes.Spread top done []) (x : InodeId) :
    x ∈ done ↔ nodes.Under top x := by
  have hdone : done ++ [] = done := List.append_nil done
  constructor
  · exact fun hx => spread.below x (hdone.symm ▸ hx)
  · intro hunder
    induction hunder using Relation.ReflTransGen.head_induction_on with
    | refl => exact hdone ▸ spread.start
    | head hparent _ ih => exact hdone ▸ spread.closed _ ih _ hparent

/-- The entries of inodes in the queue have not been found before. -/
theorem fresh (wf : nodes.WellFormed)
    (spread : nodes.Spread top done (batch ++ rest)) {x : InodeId}
    (hx : x ∈ nodes.entriesOf batch) : x ∉ done ++ (batch ++ rest) := by
  obtain ⟨id, hid, hparent⟩ := (mem_entriesOf wf).1 hx
  have hqueued : id ∈ batch ++ rest := List.mem_append_left _ hid
  intro hfound
  rcases spread.origin x hfound with rfl | ⟨parent, hdone, hparent'⟩
  · have hunder := spread.below id (List.mem_append_right _ hqueued)
    exact wf.not_under_parent hparent hunder
  · obtain rfl := hparent.unique hparent'
    exact (List.nodup_append'.1 spread.nodup).2.2 hdone hqueued

/-- Visiting the first inodes of the queue finds their entries. -/
theorem visit (wf : nodes.WellFormed)
    (spread : nodes.Spread top done (batch ++ rest)) :
    nodes.Spread top (done ++ batch) (rest ++ nodes.entriesOf batch) := by
  have hall : done ++ batch ++ (rest ++ nodes.entriesOf batch) =
      done ++ (batch ++ rest) ++ nodes.entriesOf batch := by
    simp only [List.append_assoc]
  obtain ⟨_, hqueue, _⟩ := List.nodup_append'.1 spread.nodup
  refine ⟨?_, ?_, ?_, ?_, ?_⟩ <;> rw [hall]
  · rw [List.nodup_append']
    refine ⟨spread.nodup, entriesOf_nodup wf (List.nodup_append'.1 hqueue).1,
      ?_⟩
    exact fun x hfound hx => spread.fresh wf hx hfound
  · intro x hx
    rcases List.mem_append.1 hx with hx | hx
    · exact spread.below x hx
    · obtain ⟨id, hid, hparent⟩ := (mem_entriesOf wf).1 hx
      exact (spread.below id (by simp [hid])).trans (Under.of_parent hparent)
  · exact List.mem_append_left _ spread.start
  · intro x hx
    rcases List.mem_append.1 hx with hx | hx
    · refine (spread.origin x hx).imp_right ?_
      rintro ⟨parent, hdone, hparent⟩
      exact ⟨parent, List.mem_append_left _ hdone, hparent⟩
    · obtain ⟨id, hid, hparent⟩ := (mem_entriesOf wf).1 hx
      exact .inr ⟨id, List.mem_append_right _ hid, hparent⟩
  · intro parent hvisited x hparent
    rcases List.mem_append.1 hvisited with hdone | hbatch
    · exact List.mem_append_left _ (spread.closed parent hdone x hparent)
    · exact List.mem_append_right _
        ((mem_entriesOf wf).2 ⟨parent, hbatch, hparent⟩)

theorem perm (spread : nodes.Spread top done []) {ids : List InodeId}
    (subtree : ∀ x, x ∈ ids ↔ nodes.Under top x) (nodup : ids.Nodup) :
    done.Perm ids := by
  have hdone := spread.nodup
  rw [List.append_nil] at hdone
  rw [List.perm_ext_iff_of_nodup hdone nodup]
  exact fun x => (spread.mem_iff x).trans (subtree x).symm

/-- No more is found than the subtree holds. -/
theorem length_le (spread : nodes.Spread top done queue) {ids : List InodeId}
    (subtree : ∀ x, x ∈ ids ↔ nodes.Under top x) :
    done.length + queue.length ≤ ids.length := by
  rw [← List.length_append]
  exact (spread.nodup.subperm
    fun x hx => (subtree x).2 (spread.below x hx)).length_le

end Spread

end Nodes

/-- A batch whose inodes may all be read is counted in. -/
theorem Work.summarize_of_allows {ids : List InodeId} {summary : Summary}
    {tx : Transaction} (allows : ∀ id ∈ ids, tx.Allows id .read) :
    Work.summarize ids summary tx =
      .ok (summary.addAll tx.tree ids, tx.tree.entriesOf ids) tx := by
  induction ids generalizing summary with
  | nil => rfl
  | cons id rest ih =>
    have hfind :=
      Transaction.view_find_eq_ok.2 ⟨allows id List.mem_cons_self, rfl⟩
    have hrest : ∀ id ∈ rest, tx.Allows id .read :=
      fun x hx => allows x (List.mem_cons_of_mem id hx)
    unfold Work.summarize
    rw [Outcome.bind_of_ok (Work.read_of_ok hfind)]
    cases live : tx.tree id with
    | none =>
      simp only [ih hrest, Nodes.entriesOf_cons_of_gone live, Summary.addAll,
        List.filterMap_cons_none live]
    | some inode =>
      simp only [Outcome.bind_of_ok (ih hrest),
        Nodes.entriesOf_cons_of_live live, Summary.addAll,
        List.filterMap_cons_some live, List.foldl_cons]
      rfl

namespace InodeTable

variable {table : InodeTable} {level ids : List InodeId}

theorem visits_succ (depth : Nat) :
    table.visits (depth + 1) level = level.length +
      if (table.tree.entriesOf level).isEmpty then 0
      else table.visits depth (table.tree.entriesOf level) := by
  have hentries {f : InodeId → List InodeId}
      (hf : ∀ id, f id = ((table.find? id).map Inode.children).getD []) :
      level.flatMap f = table.tree.entriesOf level := by
    induction level with
    | nil => rfl
    | cons id rest ih =>
      rw [List.flatMap_cons, ih, hf]
      cases live : table.tree id with
      | none =>
        rw [Nodes.entriesOf_cons_of_gone live,
          show table.find? id = none from live]
        rfl
      | some inode =>
        rw [Nodes.entriesOf_cons_of_live live,
          show table.find? id = some inode from live]
        rfl
  rw [visits, hentries fun id => by cases table.find? id <;> rfl]

theorem entriesOf_of_childrenOf (wf : table.tree.WellFormed)
    {below : List (List InodeId)}
    (h : List.Forall₂
      (fun id ids => table.view.childrenOf id = .ok ids) level below) :
    table.tree.entriesOf level = below.flatten := by
  induction h with
  | nil => rfl
  | cons hhead _ ih =>
    obtain ⟨inode, live, rfl⟩ := (view_reads wf).childrenOf hhead
    rw [Nodes.entriesOf_cons_of_live live, ih, List.flatten_cons]

/-- A walk visits as many inodes as its levels hold. -/
theorem visits_of_levels (wf : table.tree.WellFormed) {depth : Nat}
    (h : table.view.levels (depth + 1) level = .ok ids) :
    table.visits depth level = ids.length := by
  induction depth generalizing level ids with
  | zero =>
    cases level with
    | nil =>
      cases h
      rfl
    | cons id rest =>
      obtain ⟨below, deeper, _, hdeeper, rfl⟩ := View.levels_cons_eq_ok.1 h
      cases hbelow : below.flatten with
      | nil =>
        rw [hbelow] at hdeeper
        cases hdeeper
        simp [visits]
      | cons =>
        rw [hbelow] at hdeeper
        cases hdeeper
  | succ depth ih =>
    cases level with
    | nil =>
      cases h
      rfl
    | cons id rest =>
      obtain ⟨below, deeper, hbelow, hdeeper, rfl⟩ := View.levels_cons_eq_ok.1 h
      rw [visits_succ, entriesOf_of_childrenOf wf hbelow, List.length_append]
      split
      next hempty =>
        rw [List.isEmpty_iff.1 hempty] at hdeeper
        cases hdeeper
        rfl
      next => rw [ih hdeeper]

end InodeTable

namespace Namespace

variable {ns : Namespace} {operation : Operation}
  {ids done queue batch : List InodeId} {top : InodeId} {summary : Summary}
  {batchSize visits : Nat}

/-- A batch is locked and counted in as a whole. -/
theorem transact_summarize (free : ns.locks = ∅) :
    transact operation { ids := batch.map fun id => (id, .read) }
      (Work.summarize batch summary) ns = .ok (summary.addAll ns.table.tree
        batch, ns.table.tree.entriesOf batch) ns := by
  let locks := LockSet.ofList (batch.map fun id => (id, .read))
  have hplan :
      LockDemand.plan { ids := batch.map fun id => (id, .read) } ns.table.view =
        .ok locks := by
    unfold LockDemand.plan
    simp only [List.mapM_nil, locks]
    change Except.ok (LockSet.ofList ([] ++ _ ++ [])) = _
    rw [List.nil_append, List.append_nil]
  have hallows : ∀ id ∈ batch, (ns.opened operation locks).Allows id .read := by
    intro id hid
    refine allows_opened (LockSet.holds_ofList.2 ⟨(id, .read), ?_, rfl, rfl⟩)
    exact List.mem_map.2 ⟨id, hid, rfl⟩
  refine transact_of_ok free hplan ?_
  rw [Work.summarize_of_allows hallows, tree_opened]

/-- The state in which a walk goes on: it pauses once if there is more to
visit. -/
def paused (ns : Namespace) (more : Bool) : Namespace :=
  if more then { ns with pauses := ns.pauses + 1 } else ns

@[simp] theorem table_paused (more : Bool) :
    (ns.paused more).table = ns.table := by
  cases more <;> rfl

@[simp] theorem paused_with_pauses (more : Bool) (pauses : Nat) :
    { ns.paused more with pauses } = { ns with pauses } := by
  cases more <;> rfl

theorem Sound.paused (sound : ns.Sound) (more : Bool) :
    (ns.paused more).Sound := by
  cases more with
  | false => exact sound
  | true => exact ⟨sound.books, sound.ledger, sound.locks⟩

/-- A walk counts in a batch, and goes on with what waits and with the entries
of the batch. -/
theorem summarizeQueue_succ {waiting : List InodeId}
    (free : ns.locks = ∅) (present : queue ≠ [])
    (hbatch : queue.take batchSize = batch)
    (hwaiting : queue.drop batchSize = waiting) :
    summarizeQueue batchSize (visits + 1) queue summary ns =
      summarizeQueue batchSize visits (waiting ++ ns.table.tree.entriesOf batch)
      (summary.addAll ns.table.tree batch)
      (ns.paused !(waiting ++ ns.table.tree.entriesOf batch).isEmpty) := by
  cases queue with
  | nil => exact absurd rfl present
  | cons id rest =>
    rw [summarizeQueue]
    simp only [hbatch, hwaiting]
    rw [Outcome.bind_of_ok (transact_summarize free)]
    unfold paused
    cases (waiting ++ ns.table.tree.entriesOf batch).isEmpty <;> rfl

/-- A walk with enough visits counts in all that it has not visited yet. -/
theorem summarizeQueue_of_spread (sound : ns.Sound) (positive : 0 < batchSize)
    (subtree : ∀ x, x ∈ ids ↔ ns.table.tree.Under top x) (nodup : ids.Nodup)
    (spread : ns.table.tree.Spread top done queue)
    (enough : ids.length ≤ done.length + visits) :
    ∃ later pauses, (done ++ later).Perm ids ∧
      summarizeQueue batchSize visits queue summary ns =
        .ok (summary.addAll ns.table.tree later) { ns with pauses } := by
  induction visits generalizing ns done queue summary with
  | zero =>
    have hlength := spread.length_le subtree
    obtain rfl : queue = [] := List.length_eq_zero_iff.1 (by omega)
    have hperm := spread.perm subtree nodup
    rw [← List.append_nil done] at hperm
    exact ⟨[], ns.pauses, hperm, rfl⟩
  | succ visits ih =>
    cases queue with
    | nil =>
      have hperm := spread.perm subtree nodup
      rw [← List.append_nil done] at hperm
      exact ⟨[], ns.pauses, hperm, rfl⟩
    | cons id rest =>
      obtain ⟨batch, waiting, hbatch, hwaiting, hsplit⟩ : ∃ batch waiting,
          (id :: rest).take batchSize = batch ∧
          (id :: rest).drop batchSize = waiting ∧
            id :: rest = batch ++ waiting :=
        ⟨_, _, rfl, rfl, (List.take_append_drop batchSize _).symm⟩
      have hprogress : 0 < batch.length := by
        rw [← hbatch, List.length_take, List.length_cons]
        omega
      have wf : ns.table.tree.WellFormed := sound.books.wellFormed
      rw [hsplit] at spread
      have henough : ids.length ≤ (done ++ batch).length + visits := by
        rw [List.length_append]
        omega
      let onward :=
        ns.paused !(waiting ++ ns.table.tree.entriesOf batch).isEmpty
      have htree : onward.table.tree = ns.table.tree :=
        congrArg InodeTable.tree (table_paused _)
      obtain ⟨later, pauses, hperm, hlater⟩ :=
        @ih onward (done ++ batch) (waiting ++ ns.table.tree.entriesOf batch)
          (summary.addAll ns.table.tree batch) (sound.paused _)
          (htree.symm ▸ subtree) (htree.symm ▸ spread.visit wf) henough
      refine ⟨batch ++ later, pauses,
        (List.append_assoc done batch later) ▸ hperm, ?_⟩
      rw [summarizeQueue_succ sound.locks (List.cons_ne_nil _ _) hbatch
        hwaiting, hlater, Summary.addAll_append, htree, paused_with_pauses]

/-- A walk from an inode counts in exactly what lies under it. -/
theorem exists_summarizeQueue (sound : ns.Sound) {id : InodeId} {inode : Inode}
    (live : ns.table.tree id = some inode) (summary : Summary) :
    ∃ ids pauses, ns.table.view.subtree id = .ok ids ∧
      summarizeQueue (max 1 batchSize) (ns.table.visits ns.table.size [id])
        [id] summary ns =
        .ok (summary.addAll ns.table.tree ids) { ns with pauses } := by
  have wf : ns.table.tree.WellFormed := sound.books.wellFormed
  have reads := InodeTable.view_reads wf
  obtain ⟨ids, hids⟩ :=
    reads.exists_subtree wf live fun x _ => InodeTable.view_opens x
  have henough :
      ids.length ≤ ([] : List InodeId).length + ns.table.visits ns.table.size
        [id] := by
    have hvisits := InodeTable.visits_of_levels wf hids
    rw [show ns.table.view.size = ns.table.size from rfl] at hvisits
    rw [hvisits, List.length_nil, Nat.zero_add]
  obtain ⟨later, pauses, hperm, hlater⟩ :=
    @summarizeQueue_of_spread ns ids [] [id] id summary
      (max 1 batchSize) _ sound (by omega) (reads.mem_subtree wf hids)
      (reads.subtree_nodup wf hids) (.init _ id) henough
  rw [List.nil_append] at hperm
  exact ⟨ids, pauses, hids, hlater.trans (by rw [Summary.addAll_perm hperm])⟩

end Namespace

end QuotaTree
