/-
The shape of files.  Blocks are filled one after the other: all but the last one
of a file are full, only the last one of an open file may be unfinished, and a
file that keeps its data inline has none.  So a closed file is charged for its
length.
-/
import QuotaTree.Proofs.Files.Requests

namespace QuotaTree

open Nodes

namespace File

variable {file new : File} {info : BlockInfo} {bytes : Nat}
  {revision : Revision}

/-- What holds of the data of every file. -/
structure Formed (file : File) : Prop where
  /-- Data is kept inline or in blocks. -/
  inline : file.inlineSize.isSome → file.blocks = []
  /-- Every block but the last one is complete and full. -/
  full : ∀ info ∈ file.blocks.dropLast,
    info.isComplete = true ∧ info.block.bytes = file.blockSize
  within : ∀ info ∈ file.blocks, info.block.bytes ≤ file.blockSize
  /-- Only an open file has an unfinished block, which is then its last one. -/
  closed : file.writer = none → ∀ info ∈ file.blocks, info.isComplete = true
  /-- The last block of an open file is unfinished or full. -/
  last : file.isOpen = true → ∀ info, file.lastBlock = some info →
    info.isComplete = false ∨ info.block.bytes = file.blockSize

/-- A closed file is charged for its length, once for each replica. -/
structure ChargedBySize (file : File) : Prop where
  charged : file.charged = file.size
  usage : (file.size : Int) ≤ maxCounter →
    file.usage.get .bytes = file.size * file.replication

theorem formed_of_empty (h : file.blocks = []) : file.Formed := by
  constructor <;> simp [h, lastBlock]

theorem Formed.shaped (formed : file.Formed) : file.Shaped :=
  ⟨fun info hinfo => (formed.full info hinfo).1, formed.closed⟩

theorem LeasedTo.writer_ne_none {client : String}
    (lease : file.LeasedTo client) : file.writer ≠ none := by
  obtain ⟨writer, hwriter, _⟩ := lease
  rw [hwriter]
  exact Option.some_ne_none writer

section Blocks

/-- Ending the last block leaves those before it alone. -/
theorem dropLast_endBlock (file : File) (bytes : Nat) :
    (file.endBlock bytes).blocks.dropLast = file.blocks.dropLast := by
  unfold endBlock
  split
  · rw [withLastBlock, List.dropLast_concat]
  · rfl

theorem mem_endBlock (h : info ∈ (file.endBlock bytes).blocks) :
    info ∈ file.blocks ∨ file.openBlock.isSome ∧ info.block.bytes = bytes := by
  unfold endBlock at h
  cases hopen : file.openBlock with
  | none =>
    rw [hopen] at h
    exact .inl h
  | some last =>
    rw [hopen] at h
    rcases List.mem_append.1 h with h | h
    · exact .inl (List.mem_of_mem_dropLast h)
    · rw [List.mem_singleton.1 h]
      exact .inr ⟨rfl, rfl⟩

theorem endBlock_empty (h : file.blocks = []) : file.endBlock bytes = file := by
  refine endBlock_of_none ?_ bytes
  rw [openBlock, lastBlock, h]
  rfl

theorem endBlock_writer (file : File) (bytes : Nat) :
    (file.endBlock bytes).writer = file.writer := by
  unfold endBlock
  split <;> rfl

/-- Opening the last block again leaves those before it alone. -/
theorem dropLast_reopenBlock (file : File) :
    file.reopenBlock.blocks.dropLast = file.blocks.dropLast := by
  unfold reopenBlock
  split
  · rw [withLastBlock, List.dropLast_concat]
  · rfl

theorem reopenBlock_blockSize (file : File) :
    file.reopenBlock.blockSize = file.blockSize := by
  unfold reopenBlock
  split <;> rfl

theorem reopenBlock_inlineSize (file : File) :
    file.reopenBlock.inlineSize = file.inlineSize := by
  unfold reopenBlock
  split <;> rfl

theorem reopenBlock_empty (h : file.blocks = []) : file.reopenBlock = file := by
  rw [reopenBlock, partialBlock, lastBlock, h]
  rfl

/-- Only the last of the blocks that are kept is cut. -/
theorem mem_dropLast_splitBlocks {blocks : List BlockInfo}
    (h : info ∈ (splitBlocks bytes blocks).1.dropLast) :
    info ∈ blocks.dropLast := by
  induction blocks generalizing bytes with
  | nil => simp [splitBlocks] at h
  | cons head rest ih =>
    rw [splitBlocks] at h
    split at h
    next => cases h
    next =>
      dsimp only at h
      cases hkept :
          (splitBlocks (bytes - (head.cutTo bytes).block.bytes) rest).1 with
      | nil => simp [hkept] at h
      | cons second others =>
        have hleft : bytes - (head.cutTo bytes).block.bytes ≠ 0 := by
          intro hzero
          rw [hzero, splitBlocks_zero] at hkept
          cases hkept
        have hrest : rest ≠ [] := by
          rintro rfl
          rw [splitBlocks] at hkept
          cases hkept
        -- bytes are left for the blocks after it, so the first one is kept
        -- whole
        have hwhole : head.cutTo bytes = head := by
          have hmin : min head.block.bytes bytes = head.block.bytes := by
            change bytes - min head.block.bytes bytes ≠ 0 at hleft
            omega
          rw [BlockInfo.cutTo, hmin]
        rw [List.dropLast_cons_of_ne_nil (by rw [hkept]; simp), hwhole] at h
        rw [List.dropLast_cons_of_ne_nil hrest]
        rcases List.mem_cons.1 h with rfl | h
        · exact List.mem_cons_self
        · rw [← hwhole] at h
          exact List.mem_cons_of_mem _ (ih h)

theorem total_charged_of_complete {blocks : List BlockInfo} (blockSize : Nat)
    (h : ∀ info ∈ blocks, info.isComplete = true) :
    BlockInfo.total (·.charged blockSize) blocks =
      BlockInfo.total (·.block.bytes) blocks := by
  induction blocks with
  | nil => rfl
  | cons head rest ih =>
    rw [BlockInfo.total_cons, BlockInfo.total_cons,
      charged_complete (h head List.mem_cons_self) blockSize,
      ih fun info hinfo => h info (List.mem_cons_of_mem _ hinfo)]

end Blocks

namespace Formed

/-- When the last block of an open file has been ended as a whole one, all
blocks are full. -/
theorem full_endBlock (formed : file.Formed) (hopen : file.isOpen = true) :
    ∀ info ∈ (file.endBlock file.blockSize).blocks,
      info.isComplete = true ∧ info.block.bytes = file.blockSize := by
  intro info hinfo
  have hcomplete := formed.shaped.complete_endBlock file.blockSize info hinfo
  refine ⟨hcomplete, ?_⟩
  unfold File.endBlock at hinfo
  cases hlast : file.lastBlock with
  | none =>
    rw [lastBlock, List.getLast?_eq_none_iff] at hlast
    rw [← File.endBlock, endBlock_empty hlast, hlast] at hinfo
    cases hinfo
  | some last =>
    cases hunfinished : file.openBlock with
    | some last =>
      rw [hunfinished] at hinfo
      rcases List.mem_append.1 hinfo with hinfo | hinfo
      · exact (formed.full info hinfo).2
      · rw [List.mem_singleton.1 hinfo]
        rfl
    | none =>
      rw [hunfinished] at hinfo
      change info ∈ file.blocks at hinfo
      rw [blocks_eq_of_lastBlock hlast] at hinfo
      rcases List.mem_append.1 hinfo with hinfo | hinfo
      · exact (formed.full info hinfo).2
      · obtain rfl := List.mem_singleton.1 hinfo
        rcases formed.last hopen info hlast with hstate | hfull
        · rw [hstate] at hcomplete
          cases hcomplete
        · exact hfull

theorem beginBlock (formed : file.Formed) (hopen : file.isOpen = true)
    {block : Block} (empty : block.bytes = 0) :
    (file.beginBlock block).Formed := by
  have hfull := formed.full_endBlock hopen
  have hsize : (file.beginBlock block).blockSize = file.blockSize :=
    endBlock_blockSize file file.blockSize
  have hblocks :
      (file.beginBlock block).blocks = (file.endBlock file.blockSize).blocks ++
        [⟨block, .underConstruction⟩] := rfl
  constructor
  case inline =>
    intro h
    cases h
  case full =>
    rw [hblocks, List.dropLast_concat, hsize]
    exact hfull
  case within =>
    intro info hinfo
    rw [hblocks, List.mem_append, List.mem_singleton] at hinfo
    rw [hsize]
    rcases hinfo with hinfo | rfl
    · exact Nat.le_of_eq (hfull info hinfo).2
    · exact empty ▸ Nat.zero_le _
  case closed =>
    intro hwriter
    rw [show (file.beginBlock block).writer =
      file.writer from endBlock_writer ..] at hwriter
    rw [isOpen, hwriter] at hopen
    cases hopen
  case last =>
    intro _ info hlast
    rw [lastBlock, hblocks, List.getLast?_concat, Option.some_inj] at hlast
    exact .inl (hlast ▸ rfl)

theorem dropBlock (formed : file.Formed) (hwriter : file.writer ≠ none) :
    File.Formed { file with blocks := file.blocks.dropLast } where
  inline h := by rw [formed.inline h]; rfl
  full info hinfo := formed.full info (List.mem_of_mem_dropLast hinfo)
  within info hinfo := formed.within info (List.mem_of_mem_dropLast hinfo)
  closed h := absurd h hwriter
  last _ info hlast := .inr (formed.full info (List.mem_of_getLast? hlast)).2

theorem close (formed : file.Formed)
    (short : file.openBlock.isSome → bytes ≤ file.blockSize) :
    File.Formed { file.endBlock bytes with writer := none } where
  inline h := by
    have hempty := formed.inline (endBlock_inlineSize file bytes ▸ h)
    change (file.endBlock bytes).blocks = []
    rw [endBlock_empty hempty, hempty]
  full info hinfo := by
    change info ∈ (file.endBlock bytes).blocks.dropLast at hinfo
    rw [dropLast_endBlock] at hinfo
    exact endBlock_blockSize file bytes ▸ formed.full info hinfo
  within info hinfo := by
    change info.block.bytes ≤ (file.endBlock bytes).blockSize
    rw [endBlock_blockSize]
    rcases mem_endBlock hinfo with hinfo | ⟨hopen, hbytes⟩
    · exact formed.within info hinfo
    · exact hbytes ▸ short hopen
  closed _ := formed.shaped.complete_endBlock bytes
  last h := by cases h

theorem reopen (formed : file.Formed) (writer : Writer) :
    File.Formed { file.reopenBlock with writer := some writer } where
  inline h := by
    have hempty := formed.inline (reopenBlock_inlineSize file ▸ h)
    change file.reopenBlock.blocks = []
    rw [reopenBlock_empty hempty, hempty]
  full info hinfo := by
    change info ∈ file.reopenBlock.blocks.dropLast at hinfo
    rw [dropLast_reopenBlock] at hinfo
    exact reopenBlock_blockSize file ▸ formed.full info hinfo
  within info hinfo := by
    change info ∈ file.reopenBlock.blocks at hinfo
    change info.block.bytes ≤ file.reopenBlock.blockSize
    rw [reopenBlock_blockSize]
    unfold reopenBlock at hinfo
    split at hinfo
    next last hlast =>
      rcases List.mem_append.1 hinfo with hinfo | hinfo
      · exact formed.within info (List.mem_of_mem_dropLast hinfo)
      · rw [List.mem_singleton.1 hinfo]
        exact formed.within last
          (List.mem_of_getLast? (partialBlock_eq_some.1 hlast).1)
    next => exact formed.within info hinfo
  closed h := by cases h
  last _ info hlast := by
    change file.reopenBlock.blocks.getLast? = some info at hlast
    change info.isComplete = false ∨
      info.block.bytes = file.reopenBlock.blockSize
    rw [reopenBlock_blockSize]
    unfold reopenBlock at hlast
    split at hlast
    next =>
      rw [withLastBlock, List.getLast?_concat, Option.some_inj] at hlast
      exact .inl (hlast ▸ rfl)
    next hwhole =>
      -- a last block that is not opened again has no room left
      refine .inr
        (Nat.le_antisymm (formed.within info (List.mem_of_getLast? hlast)) ?_)
      by_contra hshort
      have hpartial := partialBlock_eq_some.2 ⟨hlast, Nat.lt_of_not_le hshort⟩
      rw [hwhole] at hpartial
      cases hpartial

theorem truncate (formed : file.Formed) (hwriter : file.writer = none)
    (length : Nat) : (file.truncate length).1.Formed := by
  unfold File.truncate
  cases hinline : file.inlineSize with
  | some => exact formed_of_empty (formed.inline (hinline ▸ rfl))
  | none =>
    constructor
    case inline =>
      intro h
      cases h
    case full =>
      exact fun info hinfo => formed.full info (mem_dropLast_splitBlocks hinfo)
    case within =>
      intro info hinfo
      obtain ⟨old, hold, _, hle⟩ := mem_splitBlocks hinfo
      exact hle.trans (formed.within old hold)
    case closed =>
      intro _ info hinfo
      obtain ⟨old, hold, hstate, _⟩ := mem_splitBlocks hinfo
      rw [BlockInfo.isComplete, hstate]
      exact formed.closed hwriter old hold
    case last =>
      intro hopen
      rw [isOpen, show _ = none from hwriter] at hopen
      cases hopen

end Formed

/-- A closed file has nothing but complete blocks, which are charged for what
they hold. -/
theorem Shaped.chargedBySize (shaped : file.Shaped)
    (hwriter : file.writer = none) : file.ChargedBySize := by
  have hcharged : file.charged = file.size := by
    rw [charged, size,
      total_charged_of_complete file.blockSize (shaped.closed hwriter),
      Nat.add_comm]
  refine ⟨hcharged, fun hle => ?_⟩
  have hbytes : file.usage.get .bytes = file.chargedSpace.get .bytes := rfl
  rw [hbytes, chargedSpace, space, StoragePolicy.get_space, hcharged,
    counterOf_of_le hle]
  rfl

end File

/-- A block that is begun has no bytes yet, as one that is given out has
none. -/
def Revision.Allotted : Revision → Prop
  | .begin _ block => block.bytes = 0
  | _ => True

/-- Whatever is asked for, a file that is formed stays so. -/
theorem File.Formed.revises {file new : File} {revision : Revision}
    (formed : file.Formed) (allotted : revision.Allotted)
    (revises : file.Revises revision new) : new.Formed := by
  cases revises with
  | media => exact ⟨formed.inline, formed.full, formed.within, formed.closed,
    formed.last⟩
  | begin lease block => exact formed.beginBlock lease.isOpen allotted
  | drop lease => exact formed.dropBlock lease.writer_ne_none
  | close lease short => exact formed.close short
  | reopen closed writer => exact formed.reopen writer
  | inline lease empty length => exact File.formed_of_empty empty
  | cut closed length => exact formed.truncate closed length

namespace Namespace

variable {ns ns' : Namespace} {revision : Revision} {lost : InodeId → Prop}

/-- Every file there is has the form of a file. -/
def WellFilled (ns : Namespace) : Prop :=
  ∀ ⦃id file⦄, ns.table.tree.file id = some file → file.Formed

theorem WellFilled.revised (filled : ns.WellFilled)
    (allotted : revision.Allotted)
    (revised : ns.table.tree.Revised ns'.table.tree revision lost) :
    ns'.WellFilled := by
  intro id file hfile
  rcases revised.made hfile with ⟨old, hold, hrevises⟩ | hempty
  · exact (filled hold).revises allotted hrevises
  · exact File.formed_of_empty hempty

theorem WellFilled.unrevised (filled : ns.WellFilled)
    (unrevised : ns.table.tree.Revised ns'.table.tree .none lost) :
    ns'.WellFilled := by
  have hallotted : Revision.none.Allotted := trivial
  exact filled.revised hallotted unrevised

theorem wellFilled_fresh (config : Config) : (fresh config).WellFilled := by
  intro id file h
  obtain ⟨inode, live, hfile⟩ := Option.bind_eq_some_iff.1 h
  rw [(InodeTable.eq_root_of_fresh live).2] at hfile
  cases hfile

/-- The block that a namespace gives out next has no bytes. -/
theorem allotted_call (ns : Namespace) (call : Call) :
    (call.revision ns.nextOut).Allotted := by
  cases call with
  | addBlock => exact rfl
  | _ => exact trivial

end Namespace

/-- If the edit begins a block, it begins it empty, as one that is given out
is. -/
def Edit.Allotted (edit : Edit) : Prop :=
  ∀ block ∈ edit.begun?, block.bytes = 0

instance (edit : Edit) : Decidable edit.Allotted :=
  inferInstanceAs (Decidable (∀ block ∈ edit.begun?, block.bytes = 0))

/-- Edits that are made again by the event begin their blocks empty. -/
def Event.Allotted : Event → Prop
  | .apply edit => edit.Allotted
  | .replay edits => ∀ edit ∈ edits, edit.Allotted
  | .call _ | .setImageLoaded _ => True

instance : (event : Event) → Decidable event.Allotted
  | .apply edit => inferInstanceAs (Decidable edit.Allotted)
  | .replay edits => inferInstanceAs (Decidable (∀ edit ∈ edits, edit.Allotted))
  | .call _ | .setImageLoaded _ => inferInstanceAs (Decidable True)

namespace Namespace

/-- What is kept from one request to the next. -/
def Filling (ns : Namespace) : Prop :=
  ns.Sound ∧ ns.WellFilled

variable {ns : Namespace} {edit : Edit} {event : Event}

theorem allotted_apply (ns : Namespace) (allotted : edit.Allotted) :
    (edit.call.revision (ns.blockOut edit)).Allotted := by
  cases edit with
  | addBlock _ _ block _ => exact allotted block rfl
  | _ => exact trivial

theorem filling_call (call : Call) : Maintaining Filling call.run := by
  intro ns ⟨sound, filled⟩
  refine ⟨(stepping_call call).sustaining ns sound, ?_⟩
  cases h : call.run ns with
  | ok done ns' =>
    exact filled.revised (allotted_call ns call) (revised_of_ok sound h)
  | error error ns' => exact filled.unrevised (revised_of_error sound h)

theorem filling_apply (allotted : edit.Allotted) :
    Maintaining Filling (apply edit) := by
  intro ns ⟨sound, filled⟩
  refine ⟨sustaining_apply edit ns sound, ?_⟩
  cases h : apply edit ns with
  | ok done ns' =>
    exact filled.revised (allotted_apply ns allotted)
      (revised_of_apply_ok sound h)
  | error error ns' =>
    exact filled.unrevised (revised_of_apply_error sound h)

theorem filling_setImageLoaded (loaded : Bool) :
    Maintaining Filling (setImageLoaded loaded) :=
  fun ns ⟨sound, filled⟩ => ⟨sustaining_setImageLoaded loaded ns sound, filled⟩

theorem filling_event (allotted : event.Allotted) :
    Maintaining Filling event.run := by
  cases event with
  | call call => exact filling_call call
  | apply edit => exact filling_apply allotted
  | replay edits =>
    exact (Maintaining.replay (fun edit hedit =>
      filling_apply (allotted edit hedit)) filling_setImageLoaded
        (Maintaining.discard_iff.1 (filling_call .recount))).discarded
  | setImageLoaded loaded => exact filling_setImageLoaded loaded

/-- In every namespace that can come about, the blocks of each file are filled
one after the other, and a file that is closed is charged for its length. -/
theorem formed_after (config : Config) (events : List Event)
    (allotted : ∀ event ∈ events, event.Allotted) :
    ∀ {id inode file}, ((fresh config).after
      (events.map Event.run)).table.find? id = some inode →
      inode.content = .file file → file.Formed ∧
      (file.writer = none → file.ChargedBySize) := by
  have filling : ((fresh config).after (events.map Event.run)).Filling :=
    Maintaining.after (fun event hevent => filling_event
      (allotted event hevent)) ⟨sound_fresh config, wellFilled_fresh config⟩
  intro id inode file live content
  have formed : file.Formed :=
    filling.2 ((file_of_live live).trans (Inode.asFile_eq_some.2 content))
  exact ⟨formed, formed.shaped.chargedBySize⟩

/-- A file is filled by calls and by an edit, closed in its third block,
continued, and cut. -/
def shapeRun : List Event :=
  [.call (.create "/d/f"
    { writer := ⟨"c", ""⟩, blockSize := some 10, replication := some 2 }),
    .call (.addBlock "/d/f" "c" []), .apply (.addBlock "/d/f" "c" ⟨7, 0, 1⟩ []),
    .call (.addBlock "/d/f" "c" []), .call (.complete "/d/f" "c" 4),
    .call (.append "/d/f" ⟨"e", ""⟩), .call (.addBlock "/d/f" "e" []),
    .call (.complete "/d/f" "e" 10), .call (.rename "/d/f" "/g"),
    .call (.truncate "/g" 35)]

theorem formed_after_shapeRun :
    ∃ inode file, ((fresh {}).after (shapeRun.map Event.run)).table.find? ⟨3⟩ =
        some inode ∧
      inode.content = .file file ∧
      file.blocks.map (·.block.bytes) = [10, 10, 10, 5] ∧
      file.Formed ∧ file.ChargedBySize := by
  have hfile : (((fresh {}).after
        (shapeRun.map Event.run)).table.tree.file ⟨3⟩).map
      (fun file => (file.writer, file.blocks.map (·.block.bytes))) = some (none,
        [10, 10, 10, 5]) := by
    decide +kernel
  obtain ⟨file, hfound, hshape⟩ := Option.map_eq_some_iff.1 hfile
  obtain ⟨inode, live, content⟩ := Option.bind_eq_some_iff.1 hfound
  have hcontent := Inode.asFile_eq_some.1 content
  have formed := formed_after {} shapeRun (by decide +kernel) live hcontent
  rw [Prod.mk.injEq] at hshape
  exact ⟨inode, file, live, hcontent, hshape.2, formed.1, formed.2 hshape.1⟩

end Namespace

end QuotaTree
