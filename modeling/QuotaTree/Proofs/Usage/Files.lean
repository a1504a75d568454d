/-
How the data of a file changes, and by how much its usage grows.  Only the last
block of a file may be unfinished, and none of a file that is closed.
-/
import QuotaTree.Inode.Blocks
import QuotaTree.Request.Attributes
import QuotaTree.Proofs.Usage.Balance

namespace QuotaTree

namespace File

variable {file new : File} {bytes length : Nat} {block : Block}
  {info : BlockInfo}

/-- All blocks but the last one are complete, and in a closed file the last one
too. -/
structure Shaped (file : File) : Prop where
  before : ∀ info ∈ file.blocks.dropLast, info.isComplete = true
  closed : file.writer = none → ∀ info ∈ file.blocks, info.isComplete = true

def Fits (file : File) : Prop :=
  (file.charged : Int) ≤ maxCounter

structure Recharged (file new : File) (delta : Counts) : Prop where
  shaped : file.Shaped → new.Shaped
  usage : file.Shaped → file.Fits → new.Fits → new.usage = file.usage + delta

theorem usage_eq (file : File) :
    file.usage = file.chargedSpace + Counts.oneInode := by
  refine Counts.ext_get fun dimension => ?_
  rw [Counts.get_add]
  have hinodes : file.chargedSpace.get .inodes = 0 := by
    rw [chargedSpace, space, StoragePolicy.get_space]
    exact Int.mul_zero _
  rcases dimension with _ | _ | type
  · rw [hinodes]
    rfl
  · exact (Int.add_zero _).symm
  · cases type <;> exact (Int.add_zero _).symm

theorem Fits.chargedSpace (fits : file.Fits) :
    file.chargedSpace = file.policy.space file.replication file.charged := by
  rw [File.chargedSpace, space, counterOf_of_le fits]

/-- A file is charged for no less than nothing in any dimension. -/
theorem Fits.usage_nonneg (fits : file.Fits) (dimension : Dimension) :
    0 ≤ file.usage.get dimension := by
  have hspace : 0 ≤ file.chargedSpace.get dimension := by
    rw [fits.chargedSpace, StoragePolicy.get_space]
    refine Int.mul_nonneg (Int.natCast_nonneg _) ?_
    cases dimension <;> exact Int.natCast_nonneg _
  rw [usage_eq, Counts.get_add]
  exact Int.add_nonneg hspace (Counts.oneInode_nonneg dimension)

theorem shaped_of_empty (h : file.blocks = []) : file.Shaped := by
  constructor <;> simp [h]

/-- A file on the same media grows by the difference of the bytes it is charged
for. -/
theorem usage_of_charged (fits : file.Fits) (fits' : new.Fits)
    (policy : new.policy = file.policy)
    (replication : new.replication = file.replication) :
    new.usage = file.usage + file.space (new.charged - file.charged : Int) := by
  rw [usage_eq, usage_eq, fits.chargedSpace, fits'.chargedSpace, policy,
    replication, space, StoragePolicy.space_sub]
  abel

theorem spaceSince_self (file : File) : file.spaceSince file = 0 := by
  rw [spaceSince, Int.sub_self, space, StoragePolicy.space_zero]

/-- What a file has grown by in two steps it has grown by at once. -/
theorem spaceSince_add_spaceSince {first second third : File}
    (policy : second.policy = third.policy)
    (replication : second.replication = third.replication) :
    third.spaceSince second + second.spaceSince first =
      third.spaceSince first := by
  simp only [spaceSince, space, policy, replication, StoragePolicy.space_sub]
  abel

theorem blocks_eq_of_lastBlock (h : file.lastBlock = some info) :
    file.blocks = file.blocks.dropLast ++ [info] :=
  (List.dropLast_append_getLast? info h).symm

/-- What is charged for the last block, beside all others. -/
theorem charged_of_lastBlock (h : file.lastBlock = some info) :
    file.charged =
      BlockInfo.total (·.charged file.blockSize) file.blocks.dropLast +
      info.charged file.blockSize + file.inlineSize.getD 0 := by
  rw [charged, blocks_eq_of_lastBlock h]
  simp

section Blocks

theorem openBlock_eq_some : file.openBlock = some info ↔
    file.lastBlock = some info ∧ info.isComplete = false := by
  simp [openBlock, Option.filter_eq_some_iff]

theorem charged_underConstruction (h : info.isComplete = false)
    (blockSize : Nat) : info.charged blockSize = blockSize := by
  unfold BlockInfo.isComplete at h
  unfold BlockInfo.charged
  cases hstate : info.state <;> simp_all

theorem charged_complete (h : info.isComplete = true) (blockSize : Nat) :
    info.charged blockSize = info.block.bytes := by
  unfold BlockInfo.isComplete at h
  unfold BlockInfo.charged
  cases hstate : info.state <;> simp_all

/-- Ending the last block replaces what was charged for it by its length. -/
theorem charged_endBlock (h : file.openBlock = some info) (bytes : Nat) :
    (file.endBlock bytes).charged + file.blockSize = file.charged + bytes := by
  obtain ⟨hlast, hopen⟩ := openBlock_eq_some.1 h
  rw [charged_of_lastBlock hlast, charged_underConstruction hopen, endBlock, h]
  simp [charged, withLastBlock, BlockInfo.ended, BlockInfo.charged]
  omega

theorem endBlock_of_none (h : file.openBlock = none) (bytes : Nat) :
    file.endBlock bytes = file := by
  rw [endBlock, h]

theorem endBlock_policy (file : File) (bytes : Nat) :
    (file.endBlock bytes).policy = file.policy := by
  unfold endBlock
  split <;> rfl

theorem endBlock_replication (file : File) (bytes : Nat) :
    (file.endBlock bytes).replication = file.replication := by
  unfold endBlock
  split <;> rfl

theorem endBlock_blockSize (file : File) (bytes : Nat) :
    (file.endBlock bytes).blockSize = file.blockSize := by
  unfold endBlock
  split <;> rfl

theorem endBlock_inlineSize (file : File) (bytes : Nat) :
    (file.endBlock bytes).inlineSize = file.inlineSize := by
  unfold endBlock
  split <;> rfl

/-- Once the last block is ended all blocks are complete. -/
theorem Shaped.complete_endBlock (shaped : file.Shaped) (bytes : Nat) :
    ∀ info ∈ (file.endBlock bytes).blocks, info.isComplete = true := by
  intro info hinfo
  unfold endBlock at hinfo
  cases h : file.openBlock with
  | some last =>
    rw [h] at hinfo
    rcases List.mem_append.1 hinfo with hinfo | hinfo
    · exact shaped.before info hinfo
    · rw [List.mem_singleton.1 hinfo]
      rfl
  | none =>
    rw [h] at hinfo
    cases hlast : file.lastBlock with
    | none =>
      rw [lastBlock, List.getLast?_eq_none_iff] at hlast
      rw [hlast] at hinfo
      cases hinfo
    | some last =>
      rw [blocks_eq_of_lastBlock hlast] at hinfo
      rcases List.mem_append.1 hinfo with hinfo | hinfo
      · exact shaped.before info hinfo
      · rw [List.mem_singleton.1 hinfo]
        by_contra hopen
        have hsome := openBlock_eq_some.2 ⟨hlast, by simpa using hopen⟩
        rw [h] at hsome
        cases hsome

end Blocks

section Recharged

/-- A growth given by two counters is the growth of the charge. -/
theorem usage_of_growth {more less : Nat} (fits : file.Fits) (fits' : new.Fits)
    (policy : new.policy = file.policy)
    (replication : new.replication = file.replication)
    (charged : new.charged + less = file.charged + more)
    (hmore : (more : Int) ≤ maxCounter) (hless : (less : Int) ≤ maxCounter) :
    new.usage = file.usage + file.space (counterOf more - counterOf less) := by
  have hgrowth :
      (new.charged - file.charged : Int) = counterOf more - counterOf less := by
    rw [counterOf_of_le hmore, counterOf_of_le hless]
    omega
  rw [usage_of_charged fits fits' policy replication, hgrowth]

/-- A charge is within the range of a counter when a greater one is. -/
theorem Fits.le (fits : file.Fits) (h : length ≤ file.charged) :
    (length : Int) ≤ maxCounter := by
  unfold Fits at fits
  omega

theorem inline_le_charged (file : File) :
    file.inlineSize.getD 0 ≤ file.charged :=
  Nat.le_add_left ..

theorem recharged_beginBlock (hopen : file.isOpen = true) (block : Block) :
    file.Recharged (file.beginBlock block) (file.space
      (counterOf file.blockSize - counterOf (file.inlineSize.getD 0))) where
  shaped shaped := by
    constructor
    · intro info hinfo
      rw [beginBlock, List.dropLast_concat] at hinfo
      exact shaped.complete_endBlock _ info hinfo
    · intro hwriter
      have hsame : (file.beginBlock block).writer = file.writer := by
        unfold beginBlock endBlock
        split <;> rfl
      rw [isOpen, ← hsame, hwriter] at hopen
      cases hopen
  usage _ fits fits' := by
    have hended : (file.endBlock file.blockSize).charged = file.charged := by
      cases h : file.openBlock with
      | some info =>
        have := charged_endBlock h file.blockSize
        omega
      | none => rw [endBlock_of_none h]
    have hcharged : (file.beginBlock block).charged + file.inlineSize.getD 0 =
        file.charged + file.blockSize := by
      rw [← hended]
      simp [beginBlock, charged, endBlock_blockSize, endBlock_inlineSize,
        BlockInfo.charged]
      omega
    have hblock : file.blockSize ≤ (file.beginBlock block).charged := by
      have := file.inline_le_charged
      omega
    refine usage_of_growth fits fits' ?_ ?_ hcharged (fits'.le hblock)
      (fits.le file.inline_le_charged)
    · exact endBlock_policy ..
    · exact endBlock_replication ..

theorem recharged_dropBlock (hopen : file.isOpen = true)
    (h : file.lastBlock = some info) :
    file.Recharged { file with blocks := file.blocks.dropLast }
      (-file.space (counterOf (info.charged file.blockSize))) where
  shaped shaped := by
    constructor
    · exact fun other hother => shaped.before other
        (List.mem_of_mem_dropLast hother)
    · intro hwriter
      rw [isOpen, show file.writer = none from hwriter] at hopen
      cases hopen
  usage _ fits fits' := by
    have hlast := charged_of_lastBlock h
    have hcharged :
        ({ file with blocks := file.blocks.dropLast } : File).charged +
          info.charged file.blockSize = file.charged + 0 := by
      rw [hlast]
      simp only [charged]
      omega
    have hgrowth := usage_of_growth fits fits' rfl rfl hcharged (by decide)
      (fits.le (by omega))
    have hzero : counterOf 0 = 0 := by decide
    rw [hgrowth, space, space, ← StoragePolicy.space_neg, hzero, Int.zero_sub]

theorem recharged_complete (bytes : Nat)
    (short : file.openBlock.isSome → bytes ≤ file.blockSize) :
    file.Recharged { file.endBlock bytes with writer := none }
      (if file.openBlock.isSome then file.space
        (counterOf bytes - counterOf file.blockSize) else 0) where
  shaped shaped := by
    have hcomplete := shaped.complete_endBlock bytes
    exact ⟨fun info hinfo => hcomplete info (List.mem_of_mem_dropLast hinfo),
      fun _ => hcomplete⟩
  usage _ fits fits' := by
    cases h : file.openBlock with
    | some info =>
      have hcharged := charged_endBlock h bytes
      have hblock : file.blockSize ≤ file.charged := by
        obtain ⟨hlast, hopen⟩ := openBlock_eq_some.1 h
        have := charged_of_lastBlock hlast
        rw [charged_underConstruction hopen] at this
        omega
      have hshort := short (by rw [h]; rfl)
      exact usage_of_growth fits fits' (endBlock_policy ..)
        (endBlock_replication ..) hcharged (fits.le (by omega)) (fits.le hblock)
    | none =>
      rw [endBlock_of_none h]
      exact (Counts.add_zero _).symm

theorem partialBlock_eq_some :
    file.partialBlock = some info ↔
      file.lastBlock = some info ∧ info.block.bytes < file.blockSize := by
  simp [partialBlock, Option.filter_eq_some_iff]

theorem recharged_append (isClosed : file.writer = none) (writer : Writer) :
    file.Recharged { file.reopenBlock with writer := some writer }
      (match file.partialBlock with
        | some info =>
          file.space (counterOf file.blockSize - counterOf info.block.bytes)
        | none => 0) where
  shaped shaped := by
    have hcomplete := shaped.closed isClosed
    refine ⟨fun info hinfo => hcomplete info ?_,
      fun hwriter => by cases hwriter⟩
    change info ∈ file.reopenBlock.blocks.dropLast at hinfo
    unfold reopenBlock at hinfo
    split at hinfo
    · rw [withLastBlock, List.dropLast_concat] at hinfo
      exact List.mem_of_mem_dropLast hinfo
    · exact List.mem_of_mem_dropLast hinfo
  usage shaped fits fits' := by
    cases h : file.partialBlock with
    | some info =>
      obtain ⟨hlast, _⟩ := partialBlock_eq_some.1 h
      have hcomplete := shaped.closed isClosed info (List.mem_of_getLast? hlast)
      have hbefore := charged_of_lastBlock hlast
      rw [charged_complete hcomplete] at hbefore
      have hreopen : file.reopenBlock = file.withLastBlock info.reopened := by
        rw [reopenBlock, h]
      have hafter :
          ({ file.reopenBlock with writer := some writer } : File).charged =
            BlockInfo.total (·.charged file.blockSize) file.blocks.dropLast +
            file.blockSize + file.inlineSize.getD 0 := by
        rw [hreopen]
        simp [charged, withLastBlock, BlockInfo.reopened, BlockInfo.charged]
      refine usage_of_growth fits fits' ?_ ?_ (by omega) (fits'.le (by omega))
        (fits.le (by omega))
      · rw [hreopen]
        rfl
      · rw [hreopen]
        rfl
    | none =>
      have hreopen : file.reopenBlock = file := by rw [reopenBlock, h]
      rw [hreopen]
      exact (Counts.add_zero _).symm

theorem recharged_inline (hblocks : file.blocks = []) (length : Nat) :
    file.Recharged { file with inlineSize := some length }
      (file.space (counterOf length - counterOf (file.inlineSize.getD 0))) where
  shaped _ := shaped_of_empty hblocks
  usage _ fits fits' := by
    have hlength :
        length ≤ ({ file with inlineSize := some length } : File).charged :=
      inline_le_charged { file with inlineSize := some length }
    refine usage_of_growth fits fits' rfl rfl ?_ (fits'.le hlength)
      (fits.le file.inline_le_charged)
    simp [charged, hblocks]
    omega

/-- What is kept are blocks that were there, the last of them cut. -/
theorem mem_splitBlocks {blocks : List BlockInfo}
    (h : info ∈ (splitBlocks bytes blocks).1) :
    ∃ old ∈ blocks, info.state = old.state ∧
      info.block.bytes ≤ old.block.bytes := by
  induction blocks generalizing bytes with
  | nil => simp [splitBlocks] at h
  | cons head tail ih =>
    rw [splitBlocks] at h
    split at h
    next => cases h
    next =>
      rcases List.mem_cons.1 h with rfl | h
      · exact ⟨head, List.mem_cons_self, rfl, Nat.min_le_left ..⟩
      · obtain ⟨old, hold, hsame⟩ := ih h
        exact ⟨old, List.mem_cons_of_mem _ hold, hsame⟩

theorem recharged_truncate (isClosed : file.writer = none) (length : Nat) :
    file.Recharged (file.truncate length).1
      ((file.truncate length).1.spaceSince file) where
  shaped shaped := by
    have hcomplete := shaped.closed isClosed
    have hkept :
        ∀ info ∈ (file.truncate length).1.blocks, info.isComplete = true := by
      intro info hinfo
      unfold truncate at hinfo
      cases h : file.inlineSize with
      | some =>
        rw [h] at hinfo
        exact hcomplete info hinfo
      | none =>
        rw [h] at hinfo
        obtain ⟨old, hold, hstate, _⟩ := mem_splitBlocks hinfo
        rw [BlockInfo.isComplete, hstate]
        exact hcomplete old hold
    exact ⟨fun info hinfo => hkept info (List.mem_of_mem_dropLast hinfo),
      fun _ => hkept⟩
  usage _ fits fits' := by
    have hmedia : (file.truncate length).1.policy = file.policy ∧
        (file.truncate length).1.replication = file.replication := by
      unfold truncate
      split <;> exact ⟨rfl, rfl⟩
    rw [usage_of_charged fits fits' hmedia.1 hmedia.2, spaceSince,
      counterOf_of_le fits, counterOf_of_le fits', space, space, hmedia.1,
      hmedia.2]

/-- A file that is placed on other media is charged for the same bytes. -/
theorem recharged_media (policy : StoragePolicy) (replication : Nat) :
    file.Recharged { file with policy, replication }
      (file.spaceUnder policy replication) where
  shaped shaped := ⟨shaped.before, shaped.closed⟩
  usage _ _ _ := by
    rw [usage_eq, usage_eq, spaceUnder]
    simp only [chargedSpace, space, charged]
    abel

end Recharged

end File

end QuotaTree
