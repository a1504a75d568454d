/-
The block map and the blocks of files.  A unit of work changes the files, and
what comes after it brings the map up to date, so that between two requests the
map lists the blocks of all files and nothing else.
-/
import QuotaTree.Proofs.Blocks.Shedding
import QuotaTree.Proofs.Settling

namespace QuotaTree

open Nodes Work

namespace Namespace

variable {α β : Type} {ns ns' : Namespace} {numbers : List Nat} {id : InodeId}

/-- Every block of a file is recorded with the file and its stamp, and every
record is of a block that its file has once.  Blocks given out later have
greater numbers. -/
structure Tracks (ns : Namespace) : Prop where
  held : ∀ {id mark}, mark ∈ ns.table.tree.marks id →
    ∃ record, ns.blocks[mark.1]? = some record ∧ record.file = id ∧
      record.stamp = mark.2
  listed : ∀ {number record}, ns.blocks[number]? = some record →
    (number, record.stamp) ∈ ns.table.tree.marks record.file
  once : ∀ id, ((ns.table.tree.marks id).map Prod.fst).Nodup
  below :
    ∀ {number record}, ns.blocks[number]? = some record → number < ns.nextBlock

namespace Tracks

/-- Blocks that files lose leave the map. -/
theorem shedding (tracks : ns.Tracks)
    (sheds : ns.table.tree.Sheds ns'.table.tree numbers)
    (blocks : ∀ number : Nat, ns'.blocks[number]? =
      if number ∈ numbers then none else ns.blocks[number]?)
    (next : ns.nextBlock ≤ ns'.nextBlock) : ns'.Tracks := by
  obtain ⟨gone, hgone, hnumbers⟩ := sheds
  have hkept {id : InodeId} {mark : Nat × Nat}
      (h : mark ∈ ns'.table.tree.marks id) : mark ∈ ns.table.tree.marks id :=
    hgone id ▸ List.mem_append_left _ h
  have hrecord {number : Nat} {record : BlockRecord}
      (h : ns'.blocks[number]? = some record) :
      number ∉ numbers ∧ ns.blocks[number]? = some record := by
    rw [blocks] at h
    split at h
    next => cases h
    next hnumber => exact ⟨hnumber, h⟩
  constructor
  case held =>
    intro id mark hmark
    obtain ⟨record, hfound, rfl, hstamp⟩ := tracks.held (hkept hmark)
    refine ⟨record, ?_, rfl, hstamp⟩
    rw [blocks, if_neg, hfound]
    intro hnumber
    -- a block lost elsewhere would be recorded for another file, and here it
    -- would stand twice
    obtain ⟨other, hother⟩ := (hnumbers _).1 hnumber
    obtain ⟨lost, hlost, hsame⟩ := List.mem_map.1 hother
    obtain ⟨record', hfound', hfile, _⟩ :=
      tracks.held (hgone other ▸ List.mem_append_right _ hlost)
    rw [hsame, hfound] at hfound'
    cases hfound'
    have honce := tracks.once other
    rw [hgone, List.map_append] at honce
    exact List.disjoint_of_nodup_append honce
      (List.mem_map_of_mem (hfile ▸ hmark)) hother
  case listed =>
    intro number record h
    obtain ⟨hnumber, h⟩ := hrecord h
    have hmark := tracks.listed h
    rw [hgone, List.mem_append] at hmark
    rcases hmark with hmark | hmark
    · exact hmark
    · exact absurd ((hnumbers number).2 ⟨_, List.mem_map_of_mem hmark⟩) hnumber
  case once =>
    intro id
    have honce := tracks.once id
    rw [hgone, List.map_append] at honce
    exact honce.of_append_left
  case below =>
    exact fun h => Nat.lt_of_lt_of_le (tracks.below (hrecord h).2) next

theorem keeping (tracks : ns.Tracks)
    (keeps : ns.table.tree.Sheds ns'.table.tree [])
    (blocks : ns'.blocks = ns.blocks) (next : ns.nextBlock ≤ ns'.nextBlock) :
    ns'.Tracks :=
  tracks.shedding keeps (fun _ => by rw [blocks, if_neg List.not_mem_nil]) next

theorem resembling (tracks : ns.Tracks) (resembles : ns.Resembles ns') :
    ns'.Tracks :=
  tracks.keeping (.of_eq resembles.nodes.recast.marks) resembles.blocks
    resembles.nextBlock

/-- A block whose number no file has is entered for the file that has begun
it. -/
theorem gaining (tracks : ns.Tracks) {block : Block} {targets : List String}
    (gains : ns.table.tree.Gains ns'.table.tree id block.mark)
    (fresh : ns.blocks[block.id]? = none)
    (blocks : ns'.blocks = ns.blocks.insert block.id ⟨id, targets, block.stamp⟩)
    (next : ns.nextBlock ≤ ns'.nextBlock) (below : block.id < ns'.nextBlock) :
    ns'.Tracks := by
  have hfresh {other : InodeId} {mark : Nat × Nat}
      (h : mark ∈ ns.table.tree.marks other) : mark.1 ≠ block.id := by
    intro heq
    obtain ⟨record, hfound, _⟩ := tracks.held h
    rw [heq, fresh] at hfound
    cases hfound
  have hentered (number : Nat) : ns'.blocks[number]? =
      if block.id = number then some ⟨id, targets, block.stamp⟩
          else ns.blocks[number]? := by
    rw [blocks, Std.ExtTreeMap.getElem?_insert]
    simp only [Std.compare_eq_iff_eq]
  have hmarks {other : InodeId} {mark : Nat × Nat} :
      mark ∈ ns'.table.tree.marks other ↔
      mark ∈ ns.table.tree.marks other ∨ (other = id ∧ mark = block.mark) := by
    by_cases hother : other = id
    · rw [hother, gains.gained, List.mem_append, List.mem_singleton, eq_self,
        true_and]
    · rw [gains.others other hother]
      simp [hother]
  constructor
  case held =>
    intro other mark hmark
    rcases hmarks.1 hmark with hold | ⟨rfl, rfl⟩
    · rw [hentered, if_neg (hfresh hold).symm]
      exact tracks.held hold
    · exact ⟨_, (hentered _).trans (if_pos rfl), rfl, rfl⟩
  case listed =>
    intro number record h
    rw [hentered] at h
    split at h
    next heq =>
      cases h
      exact hmarks.2 (.inr ⟨rfl, by rw [← heq]; rfl⟩)
    next => exact hmarks.2 (.inl (tracks.listed h))
  case once =>
    intro other
    by_cases hother : other = id
    · rw [hother, gains.gained, List.map_append, List.nodup_append]
      refine ⟨tracks.once id, List.nodup_singleton _,
        fun number hnumber last hlast => ?_⟩
      obtain ⟨mark, hmark, rfl⟩ := List.mem_map.1 hnumber
      rw [List.mem_singleton.1 hlast]
      exact hfresh hmark
    · rw [gains.others other hother]
      exact tracks.once other
  case below =>
    intro number record h
    rw [hentered] at h
    split at h
    next heq => exact heq ▸ below
    next => exact Nat.lt_of_lt_of_le (tracks.below h) next

end Tracks

/-- A request that, when it succeeds, has only looked at the namespace. -/
def Looking (request : Request α) : Prop :=
  ∀ (ns : Namespace) (a : α) (ns' : Namespace), request ns = .ok a ns' →
    ns' = ns

/-- A request that leaves the map alone, and returns the blocks that files have
lost. -/
def Shedding (request : Request α) (blocks : α → List Block) : Prop :=
  ∀ (ns : Namespace) (a : α) (ns' : Namespace), ns.Sound →
    request ns = .ok a ns' →
    ns.table.tree.Sheds ns'.table.tree (Block.numbers (blocks a)) ∧
    ns'.blocks = ns.blocks ∧
      ns.nextBlock ≤ ns'.nextBlock

/-- A request after which, when it succeeds, the map is up to date. -/
def Tracking (request : Request α) : Prop :=
  ∀ (ns : Namespace) (a : α) (ns' : Namespace), ns.Sound → ns.Tracks →
    request ns = .ok a ns' → ns'.Tracks

namespace Looking

theorem get : Looking (MonadState.get : Request Namespace) := fun _ _ _ h => by
  cases h
  rfl

theorem resolvePath (path : String) : Looking (Namespace.resolvePath path) :=
  fun _ _ _ h => (resolvePath_eq_ok.1 h).2

theorem requireLegal (value : Int) : Looking (Namespace.requireLegal value) :=
  fun _ _ _ h => (requireLegal_eq_ok.1 h).2

end Looking

namespace Shedding

variable {blocks : α → List Block}

theorem looking_bind {first : Request β} {next : β → Request α}
    (looking : Looking first) (rest : ∀ b, Shedding (next b) blocks) :
    Shedding (first >>= next) blocks := by
  intro ns a ns' sound h
  obtain ⟨b, mid, hfirst, hrest⟩ := Outcome.bind_eq_ok.1 h
  obtain rfl := looking _ _ _ hfirst
  exact rest b _ _ _ sound hrest

theorem transact {operation : Operation} {demand : LockDemand} {work : Work α}
    (frames : work.Frames)
    (sheds : ∀ {tx a tx'}, tx.Ready → work tx = .ok a tx' →
      tx.tree.Sheds tx'.tree (Block.numbers (blocks a))) :
    Shedding (Namespace.transact operation demand work) blocks := by
  intro ns a ns' sound h
  obtain ⟨hblocks, hnext⟩ := blocks_of_transact sound frames h
  obtain ⟨locks, tx, _, hwork, rfl⟩ := exists_of_transact sound.locks h
  refine ⟨?_, hblocks, Nat.le_of_eq hnext.symm⟩
  rw [tree_commit (frames.extends_of_ok hwork),
    ← @tree_opened ns operation locks]
  exact sheds (ready_opened sound.books) hwork

theorem onFile {operation : Operation} {path : String} {work : Chain → Work α}
    (frames : ∀ chain, (work chain).Frames)
    (sheds : ∀ {tx a tx' chain}, tx.Ready → work chain tx = .ok a tx' →
      tx.tree.Sheds tx'.tree (Block.numbers (blocks a))) :
    Shedding (Namespace.onFile operation path work) blocks := by
  refine .looking_bind (.resolvePath path) fun path => ?_
  refine .transact (.bind (.read _) frames) ?_
  intro tx a tx' ready h
  simp only [Outcome.bind_eq_ok, read_eq_ok] at h
  obtain ⟨chain, _, ⟨_, rfl⟩, hwork⟩ := h
  exact sheds ready hwork

end Shedding

namespace Tracking

variable {request : Request α} {next : α → Request β}

theorem looking_bind (looking : Looking request)
    (rest : ∀ a, Tracking (next a)) : Tracking (request >>= next) := by
  intro ns b ns' sound tracks h
  obtain ⟨a, mid, hfirst, hrest⟩ := Outcome.bind_eq_ok.1 h
  obtain rfl := looking _ _ _ hfirst
  exact rest a _ _ _ sound tracks hrest

theorem guarded {p : Prop} [Decidable p] {error : Error}
    {rest : PUnit → Request α} (accepted : Tracking (rest ⟨⟩)) :
    Tracking (if p then MonadExcept.throw error >>= rest else rest ⟨⟩) := by
  intro ns a ns' sound tracks h
  split at h
  next => cases h
  next => exact accepted _ _ _ sound tracks h

theorem discarded (tracking : Tracking request) :
    Tracking (discard request) := by
  intro ns _ ns' sound tracks h
  obtain ⟨a, h⟩ := Outcome.discard_eq_ok.1 h
  exact tracking _ _ _ sound tracks h

theorem of_shedding (sheds : Shedding request fun _ => []) : Tracking request :=
  fun ns a ns' sound tracks h =>
    let ⟨keeps, hblocks, hnext⟩ := sheds ns a ns' sound h
    tracks.keeping keeps hblocks hnext

/-- The blocks that files have lost are forgotten. -/
theorem releasing (blocks : α → List Block) (answer : α → β)
    (sheds : Shedding request blocks)
    (release : ∀ a ns, next a ns =
      .ok (answer a) { ns with blocks := ns.blocks.removeAll (blocks a) }) :
    Tracking (request >>= next) := by
  intro ns b ns' sound tracks h
  obtain ⟨a, mid, hfirst, hrest⟩ := Outcome.bind_eq_ok.1 h
  obtain ⟨hsheds, hblocks, hnext⟩ := sheds _ _ _ sound hfirst
  rw [release] at hrest
  cases hrest
  refine tracks.shedding hsheds (fun number => ?_) hnext
  rw [BlockMap.getElem?_removeAll, hblocks]

end Tracking

theorem tracking_create (path : String) (options : CreateOptions) :
    Tracking (create path options) := by
  refine .looking_bind (.resolvePath path) fun path => ?_
  refine .looking_bind .get fun ns => ?_
  extract_lets config replication blockSize rest
  exact .guarded (.guarded (.releasing Prod.snd Prod.fst
    (.transact (.createFile _ _ _ _) sheds_createFile) fun _ _ => rfl))

theorem tracking_createSymlink (target link : String) (permission : Permission)
    (createParent : Bool) :
    Tracking (createSymlink target link permission createParent) := by
  unfold createSymlink
  extract_lets rest
  exact .guarded (.looking_bind (.resolvePath link) fun _ =>
    .of_shedding (.transact (.symlinkPath _ _ _ _) keeps_symlinkPath))

/-- The number of a block that is given out has never been used. -/
theorem tracking_addBlock (path client : String) (targets : List String) :
    Tracking (addBlock path client targets) := by
  intro ns block ns' sound tracks h
  obtain ⟨rfl, file, mid, hfile, htrack⟩ := addBlock_eq_ok.1 h
  have hsound : (ns.past ns.nextOut).Sound :=
    ⟨sound.books, sound.ledger, sound.locks⟩
  obtain ⟨resolved, _, hresolved, hwork⟩ := Outcome.bind_eq_ok.1 hfile
  obtain rfl := Looking.resolvePath path _ _ _ hresolved
  have frames : Frames (do
      let chain ← Work.read (Chain.resolve · resolved false)
      Work.addBlockAt client ns.nextOut targets chain) :=
        .bind (.read _) (.addBlockAt _ _ _)
  obtain ⟨hblocks, hnext⟩ := blocks_of_transact hsound frames hwork
  have hfresh : ns.blocks[ns.nextOut.id]? = none := by
    rw [Option.eq_none_iff_forall_ne_some]
    exact fun record hrecord => Nat.lt_irrefl _ (tracks.below hrecord)
  rw [trackBlock_of_fresh (by rw [hblocks]; exact hfresh)] at htrack
  cases htrack
  have hgains : ns.table.tree.Gains mid.table.tree file ns.nextOut.mark := by
    obtain ⟨locks, tx, _, hadd, rfl⟩ := exists_of_transact hsound.locks hwork
    have htree := tree_commit (frames.extends_of_ok hadd)
    rw [htree, ← show (ns.past ns.nextOut).table.tree = ns.table.tree from rfl,
      ← @tree_opened (ns.past ns.nextOut) .addBlock locks]
    simp only [Outcome.bind_eq_ok, read_eq_ok] at hadd
    obtain ⟨chain, _, ⟨_, rfl⟩, hadd⟩ := hadd
    exact gains_addBlockAt (ready_opened hsound.books) hadd
  exact tracks.gaining hgains hfresh (congrArg
    (·.insert ns.nextOut.id ⟨file, targets, ns.nextOut.stamp⟩) hblocks)
    (hnext ▸ Nat.le_max_left ..) (hnext ▸ Nat.le_max_right ..)

end Namespace

end QuotaTree
