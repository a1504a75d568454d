/-
Cutting files.  Of the blocks of a file as few are kept as hold the length asked
for; only the last of them may end earlier than it did.  Cutting a file once
more leaves what cutting it to the smaller length at once leaves.
-/
import QuotaTree.Proofs.FileShape

namespace QuotaTree

namespace BlockInfo

/-- What is kept of blocks that are cut to a length, and what is lost.  The
blocks kept are the first ones; all but the last of them stay as they are, and
that one ends at the length. -/
inductive Cut (length : Nat) :
    List BlockInfo → List BlockInfo → List BlockInfo → Prop
  | nothing (blocks : List BlockInfo) (empty : length = 0) :
    Cut length blocks [] blocks
  | within (before : List BlockInfo) (info : BlockInfo) (lost : List BlockInfo)
      (bytes : Nat) (ends : total (·.block.bytes) before + bytes = length)
      (positive : 0 < bytes) (inside : bytes ≤ info.block.bytes) :
    Cut length (before ++ info :: lost)
      (before ++ [{ info with block := { info.block with bytes } }]) lost

variable {length : Nat} {blocks kept lost : List BlockInfo} {info : BlockInfo}

theorem cutTo_of_le (h : length ≤ info.block.bytes) :
    info.cutTo length =
      { info with block := { info.block with bytes := length } } := by
  rw [cutTo, Nat.min_eq_right h]

theorem cutTo_of_ge (h : info.block.bytes ≤ length) :
    info.cutTo length = info := by
  rw [cutTo, Nat.min_eq_left h]

/-- A block before the others is kept as it is if the length reaches beyond
it. -/
theorem Cut.cons (cut : Cut length blocks kept lost) (positive : 0 < length) :
    Cut (info.block.bytes + length) (info :: blocks) (info :: kept) lost := by
  cases cut with
  | nothing _ empty => exact absurd empty (Nat.ne_of_gt positive)
  | within before last lost bytes ends hbytes inside =>
    refine .within (info :: before) last lost bytes ?_ hbytes inside
    rw [total_cons, Nat.add_assoc, ends]

end BlockInfo

namespace File

open BlockInfo (Cut)

variable {less more : Nat}

/-- Blocks that hold the length asked for are cut to it. -/
theorem cut_splitBlocks {length : Nat} {blocks : List BlockInfo}
    (h : length ≤ BlockInfo.total (·.block.bytes) blocks) :
    Cut length blocks (splitBlocks length blocks).1
      (splitBlocks length blocks).2 := by
  induction blocks generalizing length with
  | nil => exact .nothing [] (Nat.le_zero.1 h)
  | cons info rest ih =>
    rw [splitBlocks]
    split
    next hzero => exact .nothing _ hzero
    next hpositive =>
      rw [BlockInfo.total_cons] at h
      rcases Nat.lt_or_ge info.block.bytes length with hlong | hshort
      · rw [BlockInfo.cutTo_of_ge (Nat.le_of_lt hlong)]
        have hrest :
            length - info.block.bytes ≤ BlockInfo.total
              (·.block.bytes) rest := by omega
        have hcut := @Cut.cons _ _ _ _ info (ih hrest) (by omega)
        rwa [show info.block.bytes + (length - info.block.bytes) =
          length by omega] at hcut
      · rw [BlockInfo.cutTo_of_le hshort]
        simp only [Nat.sub_self, splitBlocks_zero]
        exact .within [] info rest length (Nat.zero_add _)
          (Nat.pos_of_ne_zero hpositive) hshort

/-- Cutting what is kept to a smaller length keeps what that length keeps at
once. -/
theorem splitBlocks_splitBlocks (h : less ≤ more) (blocks : List BlockInfo) :
    (splitBlocks less (splitBlocks more blocks).1).1 =
      (splitBlocks less blocks).1 := by
  induction blocks generalizing less more with
  | nil => simp [splitBlocks]
  | cons info rest ih =>
    rcases Nat.eq_zero_or_pos less with rfl | hpositive
    · simp
    · have hcut : (info.cutTo more).cutTo less = info.cutTo less := by
        simp only [BlockInfo.cutTo, Nat.min_assoc, Nat.min_eq_right h]
      have hleft :
          less - (info.cutTo less).block.bytes ≤
            more - (info.cutTo more).block.bytes := by
        simp only [BlockInfo.cutTo]
        omega
      have hmore : more ≠ 0 := by omega
      have hless : less ≠ 0 := by omega
      simp only [splitBlocks, if_neg hmore, if_neg hless, hcut, ih hleft]

/-- Cutting twice loses the blocks that cutting at once loses. -/
theorem map_id_lost (h : less ≤ more) (blocks : List BlockInfo) :
    (splitBlocks less blocks).2.map (·.block.id) =
      (splitBlocks less (splitBlocks more blocks).1).2.map (·.block.id) ++
        (splitBlocks more blocks).2.map (·.block.id) := by
  have honce := map_id_splitBlocks less blocks
  have hfirst := map_id_splitBlocks more blocks
  have hsecond := map_id_splitBlocks less (splitBlocks more blocks).1
  rw [List.map_append] at honce hfirst hsecond
  rw [splitBlocks_splitBlocks h] at hsecond
  rw [← hsecond, List.append_assoc, ← honce] at hfirst
  exact (List.append_cancel_left hfirst).symm

/-- Data that is kept inline has no blocks beside it, and no block is unfinished
but the last one of an open file. -/
structure Ordered (file : File) : Prop extends file.Shaped where
  inline : file.inlineSize.isSome → file.blocks = []

variable {file new : File} {length : Nat}

theorem ordered_of_empty (h : file.blocks = []) : file.Ordered :=
  ⟨shaped_of_empty h, fun _ => h⟩

/-- Whatever is asked for, a file that is ordered stays so. -/
theorem Ordered.revises {revision : Revision} (ordered : file.Ordered)
    (revises : file.Revises revision new) : new.Ordered := by
  have shaped := ordered.toShaped
  cases revises with
  | media => exact ⟨⟨shaped.before, shaped.closed⟩, ordered.inline⟩
  | begin lease block =>
    refine ⟨(recharged_beginBlock lease.isOpen block).shaped shaped,
      fun h => ?_⟩
    cases h
  | drop lease =>
    refine ⟨⟨fun info h => shaped.before info (List.mem_of_mem_dropLast h),
      fun h => absurd h lease.writer_ne_none⟩, fun h => ?_⟩
    change file.blocks.dropLast = []
    rw [ordered.inline h]
    rfl
  | close lease short =>
    refine ⟨(recharged_complete _ short).shaped shaped, fun h => ?_⟩
    have hempty := ordered.inline (endBlock_inlineSize file _ ▸ h)
    change (file.endBlock _).blocks = []
    rw [endBlock_empty hempty, hempty]
  | reopen closed writer =>
    refine ⟨(recharged_append closed writer).shaped shaped, fun h => ?_⟩
    have hempty := ordered.inline (reopenBlock_inlineSize file ▸ h)
    change file.reopenBlock.blocks = []
    rw [reopenBlock_empty hempty, hempty]
  | inline lease empty length => exact ordered_of_empty empty
  | cut closed length =>
    refine ⟨(recharged_truncate closed length).shaped shaped, fun h => ?_⟩
    unfold File.truncate at h ⊢
    cases hinline : file.inlineSize with
    | some size => exact ordered.inline (hinline ▸ rfl)
    | none =>
      rw [hinline] at h
      cases h

/-- The file when it is cut to a length that it has; to its whole length it
stays as it is. -/
def cut (file : File) (length : Nat) : File :=
  if length = file.size then file else (file.truncate length).1

/-- The blocks that a file loses when it is cut to a length. -/
def lost (file : File) (length : Nat) : List BlockInfo :=
  if length = file.size ∨ file.inlineSize.isSome then
    [] else (splitBlocks length file.blocks).2

/-- What is left of a file that has been cut to a length. -/
structure CutTo (file : File) (length : Nat) (cut : File)
    (lost : List BlockInfo) : Prop where
  size : cut.size = length
  /-- A file is not cut to a length that is no counter. -/
  usage : (length : Int) ≤ maxCounter →
    cut.usage.get .bytes = length * file.replication
  whole : length = file.size → cut = file ∧ lost = []
  inline :
    file.inlineSize.isSome → cut = { file with inlineSize := some length } ∧
    lost = []
  blocks : file.inlineSize = none → length < file.size →
    ∃ kept, cut = { file with blocks := kept } ∧
      Cut length file.blocks kept lost

theorem cut_of_inline (h : file.inlineSize.isSome) (ordered : file.Ordered) :
    file.cut length = { file with inlineSize := some length } := by
  obtain ⟨size, hsize⟩ := Option.isSome_iff_exists.1 h
  have hwhole : file.size = size := by
    rw [File.size, ordered.inline h, hsize]
    rfl
  unfold cut truncate
  rw [hwhole, hsize]
  split
  next heq => rw [heq, ← hsize]
  next => rfl

theorem cut_of_blocks (h : file.inlineSize = none)
    (shorter : length ≠ file.size) :
    file.cut length =
      { file with blocks := (splitBlocks length file.blocks).1 } := by
  rw [cut, if_neg shorter, truncate, h]

theorem size_of_blocks (h : file.inlineSize = none) :
    file.size = BlockInfo.total (·.block.bytes) file.blocks := by
  rw [size, h, Option.getD_none, Nat.zero_add]

theorem size_cut (ordered : file.Ordered) (le : length ≤ file.size) :
    (file.cut length).size = length := by
  by_cases whole : length = file.size
  · rw [cut, if_pos whole, whole]
  cases hinline : file.inlineSize with
  | some inline =>
    rw [cut_of_inline (hinline ▸ rfl) ordered, size]
    simp only [ordered.inline (hinline ▸ rfl)]
    rfl
  | none =>
    rw [size_of_blocks hinline] at le
    rw [cut_of_blocks hinline whole, size, hinline, Option.getD_none,
      Nat.zero_add]
    exact (total_bytes_splitBlocks length file.blocks).trans
      (Nat.min_eq_left le)

/-- Nothing else of the file is cut. -/
theorem cut_eq (file : File) (length : Nat) : file.cut length =
    { file with
      blocks := (file.cut length).blocks
      inlineSize := (file.cut length).inlineSize } := by
  unfold cut truncate
  split
  · rfl
  · split <;> rfl

theorem writer_cut (file : File) (length : Nat) :
    (file.cut length).writer = file.writer := by
  rw [cut_eq]

theorem replication_cut (file : File) (length : Nat) :
    (file.cut length).replication = file.replication := by
  rw [cut_eq]

theorem policy_cut (file : File) (length : Nat) :
    (file.cut length).policy = file.policy := by
  rw [cut_eq]

theorem ordered_cut (ordered : file.Ordered) (closed : file.writer = none)
    (length : Nat) : (file.cut length).Ordered := by
  unfold cut
  split
  · exact ordered
  · exact ordered.revises (.cut closed length)

theorem cutTo_cut (ordered : file.Ordered) (closed : file.writer = none)
    (le : length ≤ file.size) :
    file.CutTo length (file.cut length) (file.lost length) where
  size := size_cut ordered le
  usage counter := by
    have hsize := size_cut ordered le
    have hclosed : (file.cut length).writer = none :=
      (writer_cut file length).trans closed
    have hcharged :=
      (ordered_cut ordered closed length).toShaped.chargedBySize hclosed
    have husage := hcharged.usage (hsize.symm ▸ counter)
    rwa [hsize, replication_cut] at husage
  whole h := by
    rw [cut, lost, if_pos h, if_pos (.inl h)]
    exact ⟨rfl, rfl⟩
  inline h := by
    rw [lost, if_pos (.inr h)]
    exact ⟨cut_of_inline h ordered, rfl⟩
  blocks h shorter := by
    rw [cut_of_blocks h (Nat.ne_of_lt shorter), lost, if_neg]
    · rw [size_of_blocks h] at shorter
      exact ⟨_, rfl, cut_splitBlocks (Nat.le_of_lt shorter)⟩
    · rintro (hwhole | hinline)
      · exact Nat.ne_of_lt shorter hwhole
      · rw [h] at hinline
        cases hinline

/-- Cutting a file twice leaves what cutting it to the smaller length leaves. -/
theorem cut_cut (ordered : file.Ordered) (h : less ≤ more)
    (le : more ≤ file.size) : (file.cut more).cut less = file.cut less := by
  by_cases hsame : less = more
  · rw [hsame, cut, if_pos (size_cut ordered le).symm]
  by_cases hwhole : more = file.size
  · rw [cut.eq_1 file more, if_pos hwhole]
  have hsecond : less ≠ (file.cut more).size := by
    rw [size_cut ordered le]
    exact hsame
  have honce : less ≠ file.size := by omega
  cases hinline : file.inlineSize with
  | some size =>
    rw [cut.eq_1 (file.cut more) less, if_neg hsecond, cut.eq_1 file less,
      if_neg honce, cut_of_inline (hinline ▸ rfl) ordered]
    simp only [truncate, hinline]
  | none =>
    have hmore := cut_of_blocks hinline hwhole
    have hkept : (file.cut more).inlineSize = none := by rw [hmore, hinline]
    rw [cut_of_blocks hkept hsecond, cut_of_blocks hinline honce, hmore]
    simp only [splitBlocks_splitBlocks h, hinline]

/-- Cutting a file twice loses the blocks that cutting it to the smaller length
loses. -/
theorem map_id_lost_cut (ordered : file.Ordered) (h : less ≤ more)
    (le : more ≤ file.size) :
    (file.lost less).map (·.block.id) = ((file.cut more).lost less).map
      (·.block.id) ++ (file.lost more).map (·.block.id) := by
  by_cases hsame : less = more
  · have hnone : (file.cut more).lost less = [] :=
      if_pos (.inl (by rw [hsame, size_cut ordered le]))
    rw [hnone, hsame]
    rfl
  by_cases hwhole : more = file.size
  · have hnone : file.lost more = [] := if_pos (.inl hwhole)
    rw [hnone, cut, if_pos hwhole, List.map_nil, List.append_nil]
  have hsecond : less ≠ (file.cut more).size := by
    rw [size_cut ordered le]
    exact hsame
  have honce : less ≠ file.size := by omega
  cases hinline : file.inlineSize with
  | some size =>
    have hkept : (file.cut more).inlineSize.isSome := by
      rw [cut_of_inline (hinline ▸ rfl) ordered]
      rfl
    simp only [lost, hinline, hkept, Option.isSome_some, or_true, if_true,
      List.map_nil, List.append_nil]
  | none =>
    have hmore := cut_of_blocks hinline hwhole
    have hkept : (file.cut more).inlineSize = none := by rw [hmore, hinline]
    simp only [lost, hinline, hkept, hsecond, honce, hwhole, Option.isSome_none,
      Bool.false_eq_true, or_self, if_false]
    rw [hmore]
    exact map_id_lost h file.blocks

end File

namespace Namespace

open Nodes

variable {ns ns' : Namespace} {revision : Revision} {lost : InodeId → Prop}

/-- Every file there is keeps its data in order. -/
def InOrder (ns : Namespace) : Prop :=
  ∀ ⦃id file⦄, ns.table.tree.file id = some file → file.Ordered

theorem InOrder.revised (inOrder : ns.InOrder)
    (revised : ns.table.tree.Revised ns'.table.tree revision lost) :
    ns'.InOrder := by
  intro id file hfile
  rcases revised.made hfile with ⟨old, hold, hrevises⟩ | hempty
  · exact (inOrder hold).revises hrevises
  · exact File.ordered_of_empty hempty

theorem maintaining_inOrder_call (call : Call) :
    Maintaining (fun ns => ns.Sound ∧ ns.InOrder) call.run := by
  intro ns ⟨sound, inOrder⟩
  refine ⟨(stepping_call call).sustaining ns sound, ?_⟩
  cases h : call.run ns with
  | ok done ns' => exact inOrder.revised (revised_of_ok sound h)
  | error error ns' =>
    exact inOrder.revised (@revised_of_error _ _ .none _ _ sound h)

theorem maintaining_inOrder_apply (edit : Edit) :
    Maintaining (fun ns => ns.Sound ∧ ns.InOrder) (apply edit) := by
  intro ns ⟨sound, inOrder⟩
  refine ⟨sustaining_apply edit ns sound, ?_⟩
  cases h : apply edit ns with
  | ok done ns' => exact inOrder.revised (revised_of_apply_ok sound h)
  | error error ns' =>
    exact inOrder.revised (@revised_of_apply_error _ _ .none _ _ sound h)

theorem inOrder_after (config : Config) (events : List Event) :
    ((fresh config).after (events.map Event.run)).InOrder := by
  have marking (loaded : Bool) :
      Maintaining (fun ns => ns.Sound ∧ ns.InOrder) (setImageLoaded loaded) :=
    fun ns ⟨sound, inOrder⟩ =>
      ⟨sustaining_setImageLoaded loaded ns sound, inOrder⟩
  have hevent (event : Event) :
      Maintaining (fun ns => ns.Sound ∧ ns.InOrder) event.run := by
    cases event with
    | call call => exact maintaining_inOrder_call call
    | apply edit => exact maintaining_inOrder_apply edit
    | setImageLoaded loaded => exact marking loaded
    | replay edits =>
      exact (Maintaining.replay (fun edit _ => maintaining_inOrder_apply edit)
        marking (Maintaining.discard_iff.1
          (maintaining_inOrder_call .recount))).discarded
  have inOrder : (fresh config).InOrder := fun id file hfile =>
    have filled := wellFilled_fresh config hfile
    ⟨filled.shaped, filled.inline⟩
  exact (Maintaining.after (fun event _ => hevent event)
    ⟨sound_fresh config, inOrder⟩).2

end Namespace

end QuotaTree
