/-
A namespace and the one that its edits have rebuilt so far.  Their trees match
and their blocks agree; identities that are used up without effect leave the
second behind.
-/
import QuotaTree.Proofs.Replay.Mirror
import QuotaTree.Proofs.Settling

namespace QuotaTree

section Repairing

variable {p q : Pairing}

theorem rel_of_live {x y : Option InodeId} (h : Option.Rel p x y)
    (live : ∀ {a b}, x = some a → p a b → q a b) : Option.Rel q x y := by
  cases h with
  | some ids => exact .some (live rfl ids)
  | none => exact .none

namespace Inode.Recached

variable {inode new : Inode}

/-- Only what a directory's quota has cached differs. -/
theorem of_directory (recached : inode.Recached new) {directory : Directory}
    (content : inode.content = .directory directory) :
    ∃ changed, new = inode.withDirectory changed ∧
      changed.children = directory.children ∧
      changed.quota.map Quota.limits = directory.quota.map Quota.limits ∧
      changed.policy = directory.policy := by
  cases recached with
  | same =>
    exact ⟨directory, by rw [Inode.withDirectory, ← content], rfl, rfl, rfl⟩
  | @cached quota cached h =>
    obtain ⟨other, hother, hquota⟩ := exists_directory_of_quota h
    obtain rfl : directory = other :=
      Content.directory.inj (content.symm.trans hother)
    exact ⟨_, withQuota_eq content _, rfl, by rw [hquota]; rfl, rfl⟩

theorem eq_of_asDirectory_eq_none (recached : inode.Recached new)
    (content : inode.asDirectory = none) : new = inode := by
  cases recached with
  | same => rfl
  | cached cached h => simp [Inode.quota, content] at h

end Inode.Recached

/-- Inodes match whatever usage their quotas have cached. -/
theorem Inode.Matches.recached {left right left' right' : Inode}
    (inodes : left.Matches p right) (hleft : left.Recached left')
    (hright : right.Recached right') : left'.Matches p right' := by
  rcases inodes.kinds with ⟨directory, directory', h, h', directories⟩ |
    ⟨_, h, h'⟩ | ⟨_, h, h'⟩
  · obtain ⟨changed, rfl, hchildren, hlimits, hpolicy⟩ := hleft.of_directory h
    obtain ⟨changed', rfl, hchildren', hlimits', hpolicy'⟩ :=
      hright.of_directory h'
    refine inodes.withDirectory ⟨?_, ?_, ?_⟩
    · rw [hchildren, hchildren']
      exact directories.children
    · rw [hlimits, hlimits', directories.limits]
    · rw [hpolicy, hpolicy', directories.policy]
  · rw [hleft.eq_of_asDirectory_eq_none (by simp [Inode.asDirectory, h]),
      hright.eq_of_asDirectory_eq_none (by simp [Inode.asDirectory, h'])]
    exact inodes
  · rw [hleft.eq_of_asDirectory_eq_none (by simp [Inode.asDirectory, h]),
      hright.eq_of_asDirectory_eq_none (by simp [Inode.asDirectory, h'])]
    exact inodes

namespace Nodes

variable {left right : Nodes}

/-- An inode matches under any pairing of the identities that are live. -/
theorem matches_of_live (wf : left.WellFormed)
    (live : ∀ {a b}, p a b → (left a).isSome → q a b) {a : InodeId}
    {inode inode' : Inode} (found : left a = some inode)
    (inodes : inode.Matches p inode') : inode.Matches q inode' where
  id := live inodes.id (by rw [wf.ids found, found]; rfl)
  name := inodes.name
  permission := inodes.permission
  parent := rel_of_live inodes.parent fun hparent ids => by
    obtain ⟨above, habove, _⟩ := wf.live_parent ⟨inode, found, hparent⟩
    exact live ids (by rw [habove]; rfl)
  content := by
    rcases inodes.kinds with ⟨directory, _, h, h', directories⟩ | ⟨_, h, h'⟩ |
      ⟨_, h, h'⟩ <;>
      rw [h, h']
    · refine .directory ⟨fun name => ?_, directories.limits, directories.policy⟩
      refine rel_of_live (directories.children name) fun {x _} hchild ids => ?_
      have hlisted : inode.child? name = some x := by
        rw [Inode.child?, Inode.asDirectory_eq_some.2 h]
        exact hchild
      obtain ⟨below, hbelow, _⟩ := wf.hasParent_of_child found hlisted
      exact live ids (by rw [hbelow]; rfl)
    · exact .file _
    · exact .symlink _

/-- Under another pairing of the identities that are live the trees still
match. -/
theorem Matches.repair (nodes : left.Matches p right) (wf : left.WellFormed)
    (live : ∀ {a b}, p a b → (left a).isSome → q a b)
    (others : ∀ {a b}, q a b → p a b ∨ (left a = none ∧ right b = none)) :
    left.Matches q right where
  at_pair {a b} hab := by
    rcases others hab with hab | ⟨hleft, hright⟩
    · have hrel := nodes.at_pair hab
      cases hleft : left a with
      | none =>
        rw [right_none_of_rel hrel hleft]
        exact .none
      | some inode =>
        obtain ⟨inode', hright, inodes⟩ := exists_right_of_rel hrel hleft
        rw [hright]
        exact .some (matches_of_live wf live hleft inodes)
    · rw [hleft, hright]
      exact .none
  left_total found := by
    obtain ⟨b, hab⟩ := nodes.left_total found
    exact ⟨b, live hab (by rw [found]; rfl)⟩
  right_total {b inode} found := by
    obtain ⟨a, hab⟩ := nodes.right_total found
    refine ⟨a, live hab ?_⟩
    rw [isSome_of_rel (nodes.at_pair hab), found]
    rfl

/-- What quotas have cached does not matter. -/
theorem Matches.recached {left' right' : Nodes} (nodes : left.Matches p right)
    (hleft : left.Recached left') (hright : right.Recached right') :
    left'.Matches p right' where
  at_pair {a b} hab := by
    have hrel := nodes.at_pair hab
    have hnew := hleft a
    have hnew' := hright b
    generalize left a = inode at hrel hnew
    generalize right b = inode' at hrel hnew'
    generalize left' a = new at hnew
    generalize right' b = new' at hnew'
    cases hrel with
    | none =>
      cases hnew
      cases hnew'
      exact .none
    | some inodes =>
      cases hnew with
      | some recached =>
        cases hnew' with
        | some recached' => exact .some (inodes.recached recached recached')
  left_total {a inode} found := by
    have hold : (left a).isSome := by
      rw [isSome_of_rel (hleft a), found]
      rfl
    obtain ⟨old, hold⟩ := Option.isSome_iff_exists.1 hold
    exact nodes.left_total hold
  right_total {b inode} found := by
    have hold : (right b).isSome := by
      rw [isSome_of_rel (hright b), found]
      rfl
    obtain ⟨old, hold⟩ := Option.isSome_iff_exists.1 hold
    exact nodes.right_total hold

end Nodes

end Repairing

theorem length_le_of_total {r : InodeId → InodeId → Prop}
    (unique : Relator.LeftUnique r) {xs ys : List InodeId} (nodup : xs.Nodup)
    (total : ∀ x ∈ xs, ∃ y ∈ ys, r x y) : xs.length ≤ ys.length := by
  choose! f hf using total
  have hnodup : (xs.map f).Nodup := by
    refine nodup.map_on fun x hx y hy hxy => ?_
    exact unique (hf x hx).2 (hxy ▸ (hf y hy).2)
  have hsub : xs.map f ⊆ ys := by
    intro y hy
    obtain ⟨x, hx, rfl⟩ := List.mem_map.1 hy
    exact (hf x hx).1
  rw [← List.length_map f]
  exact (hnodup.subperm hsub).length_le

namespace InodeTable

variable {p : Pairing} {left right : InodeTable}

/-- Matching trees hold equally many inodes. -/
theorem size_eq_of_matches (nodes : left.tree.Matches p right.tree) :
    left.size = right.size := by
  have hle : left.nodes.keys.length ≤ right.nodes.keys.length := by
    refine length_le_of_total p.unique.1 left.nodes.nodup_keys fun a ha => ?_
    obtain ⟨inode, live⟩ :=
      Option.isSome_iff_exists.1 ((isSome_find?_iff_mem_keys a).2 ha)
    obtain ⟨b, hab⟩ := nodes.left_total live
    refine ⟨b, (isSome_find?_iff_mem_keys b).1 ?_, hab⟩
    rw [← isSome_of_rel (nodes.at_pair hab)]
    exact (isSome_find?_iff_mem_keys a).2 ha
  have hge : right.nodes.keys.length ≤ left.nodes.keys.length := by
    refine @length_le_of_total (fun b a => p a b) (fun _ _ _ h h' =>
      p.unique.2 h h') _ _ right.nodes.nodup_keys fun b hb => ?_
    obtain ⟨inode, live⟩ :=
      Option.isSome_iff_exists.1 ((isSome_find?_iff_mem_keys b).2 hb)
    obtain ⟨a, hab⟩ := nodes.right_total live
    refine ⟨a, (isSome_find?_iff_mem_keys a).1 ?_, hab⟩
    rw [isSome_of_rel (nodes.at_pair hab)]
    exact (isSome_find?_iff_mem_keys b).2 hb
  rw [Std.ExtTreeMap.length_keys, Std.ExtTreeMap.length_keys] at hle hge
  exact Nat.le_antisymm hle hge

theorem view_matches (nodes : left.tree.Matches p right.tree) :
    left.view.Matches p right.view where
  find ids _ hfound := by
    cases hfound
    exact ⟨_, rfl, nodes.at_pair ids⟩
  size := size_eq_of_matches nodes

end InodeTable

namespace Pairing

variable {p : Pairing} {next next' later : InodeId}

/-- What has been paired so far, and from then on one new identity after the
other. -/
def realigned (p : Pairing) (next next' later : InodeId)
    (le : next.val ≤ later.val) (root : InodeId.root.val < next.val)
    (root' : InodeId.root.val < next'.val) : Pairing where
  rel a b := (p a b ∧ a.val < next.val ∧ b.val < next'.val) ∨
    ∃ steps, a.val = later.val + steps ∧ b.val = next'.val + steps
  unique := by
    have hext {x y : InodeId} (h : x.val = y.val) : x = y := by
      cases x
      cases y
      exact congrArg InodeId.mk h
    constructor
    · rintro a b c (⟨hab, _, _⟩ | ⟨steps, _, hb⟩)
        (⟨hcb, _, _⟩ | ⟨steps', _, hb'⟩)
      · exact p.unique.1 hab hcb
      · omega
      · omega
      · exact hext (by omega)
    · rintro a b c (⟨hab, _, _⟩ | ⟨steps, ha, _⟩)
        (⟨hac, _, _⟩ | ⟨steps', ha', _⟩)
      · exact p.unique.2 hab hac
      · omega
      · omega
      · exact hext (by omega)
  root := .inl ⟨p.root, root, root'⟩

end Pairing

namespace Namespace

/-- A namespace and the one rebuilt from its edits. -/
structure Alike (p : Pairing) (ns rebuilt : Namespace) : Prop where
  nodes : ns.table.tree.Matches p rebuilt.table.tree
  fresh :
    ∀ steps, p ⟨ns.table.next.val + steps⟩ ⟨rebuilt.table.next.val + steps⟩
  behind : rebuilt.table.next.val ≤ ns.table.next.val
  config : rebuilt.config = ns.config
  loaded : ns.imageLoaded = true
  replaying : rebuilt.imageLoaded = false
  blocks : ∀ id : Nat,
    Option.Rel (fun record record' => record.targets = record'.targets ∧
      record.stamp = record'.stamp) ns.blocks[id]? rebuilt.blocks[id]?
  numbered : ∀ id : Nat, (ns.blocks[id]?).isSome → id < ns.nextBlock
  unlogged : rebuilt.edits = []

variable {p : Pairing} {ns ns' rebuilt : Namespace}
  {operation operation' : Operation} {locks locks' : LockSet}
  {tx tx' : Transaction}

/-- What resembles a namespace is still like what is rebuilt. -/
theorem Alike.resembling (alike : ns.Alike p rebuilt) (sound : ns.Sound)
    (sound' : rebuilt.Sound) (resembles : ns.Resembles ns') :
    ∃ q, ns'.Alike q rebuilt := by
  obtain ⟨root, hroot, _⟩ := sound.books.wellFormed.root
  obtain ⟨root', hroot', _⟩ := sound'.books.wellFormed.root
  let q :=
    p.realigned ns.table.next rebuilt.table.next ns'.table.next resembles.next
      (sound.books.below hroot) (sound'.books.below hroot')
  have hnodes : ns.table.tree.Matches q rebuilt.table.tree := by
    refine alike.nodes.repair sound.books.wellFormed (fun {a b} hab live => ?_)
      fun {a b} hab => ?_
    · obtain ⟨inode, hinode⟩ := Option.isSome_iff_exists.1 live
      obtain ⟨inode', hinode', _⟩ :=
        exists_right_of_rel (alike.nodes.at_pair hab) hinode
      exact .inl ⟨hab, sound.books.below hinode, sound'.books.below hinode'⟩
    · rcases hab with ⟨hab, _, _⟩ | ⟨steps, ha, hb⟩
      · exact .inl hab
      · have hnext := resembles.next
        right
        constructor
        · by_contra hne
          obtain ⟨inode, hinode⟩ := Option.ne_none_iff_exists'.1 hne
          have hbelow : a.val < ns.table.next.val := sound.books.below hinode
          omega
        · by_contra hne
          obtain ⟨inode, hinode⟩ := Option.ne_none_iff_exists'.1 hne
          have hbelow : b.val < rebuilt.table.next.val :=
            sound'.books.below hinode
          omega
  exact ⟨q,
    { nodes := hnodes.recached resembles.nodes (.refl _)
      fresh := fun steps => .inr ⟨steps, rfl, rfl⟩
      behind := Nat.le_trans alike.behind resembles.next
      config := by rw [resembles.config, alike.config]
      loaded := resembles.loaded.trans alike.loaded
      replaying := alike.replaying
      blocks := by
        rw [resembles.blocks]
        exact alike.blocks
      numbered := by
        rw [resembles.blocks]
        exact fun id hid => Nat.lt_of_lt_of_le
          (alike.numbered id hid) resembles.nextBlock
      unlogged := alike.unlogged }⟩

/-- Locks on one namespace that allow what locks on the other one allow. -/
def Carries (p : Pairing) (locks locks' : LockSet) : Prop :=
  ∀ {a b mode}, p a b → locks.holds a mode = true → locks'.holds b mode = true

/-- Units of work that are begun on matching trees, of which the second is done
again. -/
theorem matches_opened (nodes : ns.table.tree.Matches p rebuilt.table.tree)
    (fresh : ∀ steps,
      p ⟨ns.table.next.val + steps⟩ ⟨rebuilt.table.next.val + steps⟩)
    (behind : rebuilt.table.next.val ≤ ns.table.next.val)
    (config : rebuilt.config = ns.config)
    (replaying : rebuilt.imageLoaded = false)
    (carries : Carries p locks locks') :
    (ns.opened operation locks).Matches p
      (rebuilt.opened operation' locks') where
  nodes := by
    have htree : (ns.opened operation locks).tree = ns.table.tree :=
      congrArg Books.nodes books_opened
    have htree' :
        (rebuilt.opened operation' locks').tree = rebuilt.table.tree :=
      congrArg Books.nodes books_opened
    rw [htree, htree']
    exact nodes
  allows ids hallows := by
    rcases hallows with hheld | hmade
    · exact .inl (carries ids hheld)
    · cases hmade
  fresh := fresh
  behind := behind
  size := InodeTable.size_eq_of_matches nodes
  written _ := by simp [Namespace.opened]
  writes := rfl
  config := config
  replaying := replaying

theorem Alike.opened (alike : ns.Alike p rebuilt)
    (carries : Carries p locks locks') :
    (ns.opened operation locks).Matches p (rebuilt.opened operation' locks') :=
  matches_opened alike.nodes alike.fresh alike.behind alike.config
    alike.replaying carries

/-- Blocks may be forgotten on both sides. -/
theorem Alike.releasing (alike : ns.Alike p rebuilt) (released : List Block) :
    Namespace.Alike p { ns with blocks := ns.blocks.removeAll released }
      { rebuilt with blocks := rebuilt.blocks.removeAll released } where
  nodes := alike.nodes
  fresh := alike.fresh
  behind := alike.behind
  config := alike.config
  loaded := alike.loaded
  replaying := alike.replaying
  blocks id := by
    rw [BlockMap.getElem?_removeAll, BlockMap.getElem?_removeAll]
    split
    · exact .none
    · exact alike.blocks id
  numbered id hid := by
    rw [BlockMap.getElem?_removeAll] at hid
    split at hid
    · cases hid
    · exact alike.numbered id hid
  unlogged := alike.unlogged

/-- A block that neither side knows may be entered on both sides, for any
files. -/
theorem Alike.tracking (alike : ns.Alike p rebuilt) {block : Block}
    (numbered : block.id < ns.nextBlock) (file file' : InodeId)
    (targets : List String) : Namespace.Alike p
    { ns with blocks := ns.blocks.insert block.id ⟨file, targets, block.stamp⟩ }
    { rebuilt with blocks := rebuilt.blocks.insert block.id ⟨file', targets,
                     block.stamp⟩ } where
  nodes := alike.nodes
  fresh := alike.fresh
  behind := alike.behind
  config := alike.config
  loaded := alike.loaded
  replaying := alike.replaying
  blocks id := by
    change Option.Rel _ (ns.blocks.insert _ _)[id]?
      (rebuilt.blocks.insert _ _)[id]?
    rw [Std.ExtTreeMap.getElem?_insert, Std.ExtTreeMap.getElem?_insert]
    split
    · exact .some ⟨rfl, rfl⟩
    · exact alike.blocks id
  numbered id hid := by
    change ((ns.blocks.insert _ _)[id]?).isSome at hid
    rw [Std.ExtTreeMap.getElem?_insert] at hid
    split at hid
    next h => exact Nat.compare_eq_eq.1 h ▸ numbered
    next => exact alike.numbered id hid
  unlogged := alike.unlogged

/-- Numbers for blocks may be used up on both sides. -/
theorem Alike.numbering (alike : ns.Alike p rebuilt)
    {blocks blocks' stamps stamps' : Nat} (le : ns.nextBlock ≤ blocks) :
    Namespace.Alike p { ns with nextBlock := blocks, nextStamp := stamps }
      { rebuilt with nextBlock := blocks', nextStamp := stamps' } :=
  { alike with
    numbered := fun id hid => Nat.lt_of_lt_of_le (alike.numbered id hid) le }

/-- When both namespaces store matching trees they stay alike. -/
theorem Alike.commit (alike : ns.Alike p rebuilt) (sound : ns.Sound)
    (sound' : rebuilt.Sound) (ext : (ns.opened operation locks).Extends tx)
    (ext' : (rebuilt.opened operation' locks').Extends tx')
    (matched : tx.Matches p tx') : tx.commit.Alike p tx'.commit where
  nodes := by
    rw [tree_commit ext, tree_commit ext']
    exact matched.nodes
  fresh := by
    rw [next_commit, next_commit]
    exact matched.fresh
  behind := by
    rw [next_commit, next_commit]
    exact matched.behind
  config := by
    rw [commit_eq sound ext, commit_eq sound' ext']
    exact alike.config
  loaded := by
    rw [commit_eq sound ext]
    exact alike.loaded
  replaying := by
    rw [commit_eq sound' ext']
    exact alike.replaying
  blocks := by
    rw [commit_eq sound ext, commit_eq sound' ext']
    exact alike.blocks
  numbered := by
    rw [commit_eq sound ext]
    exact alike.numbered
  unlogged := by
    rw [commit_eq sound' ext', alike.replaying]
    exact (List.append_nil _).trans alike.unlogged

theorem edits_commit (sound : ns.Sound) (loaded : ns.imageLoaded = true)
    (ext : (ns.opened operation locks).Extends tx) :
    tx.commit.edits = ns.edits ++ tx.edits := by
  rw [commit_eq sound ext, loaded]
  rfl

end Namespace

end QuotaTree
