/-
Two trees that are the same but for the identities of their inodes.  A pairing
says which identities stand for each other; inodes match when they agree in all
that does not depend on what has been merged, their identities being paired.
-/
import QuotaTree.Proofs.Outcome
import QuotaTree.Proofs.Tree.Shape
import Mathlib.Logic.Relator

namespace QuotaTree

section Options

variable {α β : Type} {r : α → β → Prop} {x : Option α} {y : Option β} {a : α}
  {b : β}

theorem isSome_of_rel (h : Option.Rel r x y) : x.isSome = y.isSome := by
  cases h <;> rfl

theorem exists_right_of_rel (h : Option.Rel r x y) (hx : x = some a) :
    ∃ b, y = some b ∧ r a b := by
  cases h with
  | some hab =>
    cases hx
    exact ⟨_, rfl, hab⟩
  | none => cases hx

theorem right_none_of_rel (h : Option.Rel r x y) (hx : x = none) :
    y = none := by
  cases h with
  | some => cases hx
  | none => rfl

/-- What is the same in one respect is there on both sides or on neither. -/
theorem rel_of_map_eq {γ : Type} {f : α → γ} {x y : Option α}
    (h : x.map f = y.map f) : Option.Rel (fun a b => f a = f b) x y := by
  cases x with
  | none =>
    rw [Option.map_eq_none_iff.1 h.symm]
    exact .none
  | some a =>
    obtain ⟨b, rfl, same⟩ := Option.map_eq_some_iff.1 h.symm
    exact .some same.symm

theorem eq_of_rel_same {x y : Option α} (h : Option.Rel Eq x y) : x = y := by
  cases h with
  | some same => rw [same]
  | none => rfl

theorem rel_euclidean {r : α → α → Prop}
    (euclidean : ∀ {a b c}, r a c → r b c → r a b) {x y z : Option α}
    (h : Option.Rel r x z) (h' : Option.Rel r y z) : Option.Rel r x y := by
  cases h with
  | some ha =>
    cases h' with
    | some hb => exact .some (euclidean ha hb)
  | none =>
    cases h'
    exact .none

end Options

/-- Identities that stand for each other, each for at most one. -/
structure Pairing where
  rel : InodeId → InodeId → Prop
  unique : Relator.BiUnique rel
  root : rel .root .root

namespace Pairing

instance : CoeFun Pairing fun _ => InodeId → InodeId → Prop :=
  ⟨Pairing.rel⟩

variable {p : Pairing} {a a' b b' : InodeId}

theorem left_eq_iff (h : p a b) (h' : p a' b') : a = a' ↔ b = b' := by
  constructor
  · rintro rfl
    exact p.unique.2 h h'
  · rintro rfl
    exact p.unique.1 h h'

theorem eq_root_iff (h : p a b) : a = .root ↔ b = .root :=
  left_eq_iff h p.root

end Pairing

namespace Pairing

def same : Pairing where
  rel := Eq
  unique :=
    ⟨fun _ _ _ h h' => h.trans h'.symm, fun _ _ _ h h' => h.symm.trans h'⟩
  root := rfl

end Pairing

/-- Directories that list paired identities under the same names, with the same
limits. -/
structure Directory.Matches (p : Pairing) (left right : Directory) : Prop where
  children :
    ∀ name : Name, Option.Rel p left.children[name]? right.children[name]?
  limits : left.quota.map Quota.limits = right.quota.map Quota.limits
  policy : left.policy = right.policy

inductive Content.Matches (p : Pairing) : Content → Content → Prop
  | directory {left right : Directory} (directories : left.Matches p right) :
      Matches p (.directory left) (.directory right)
  | file (file : File) : Matches p (.file file) (.file file)
  | symlink (target : String) : Matches p (.symlink target) (.symlink target)

/-- Inodes that agree in all but their identities and the usage that is
cached. -/
structure Inode.Matches (p : Pairing) (left right : Inode) : Prop where
  id : p left.id right.id
  name : left.name = right.name
  parent : Option.Rel p left.parent right.parent
  permission : left.permission = right.permission
  content : left.content.Matches p right.content

/-- Chains along the same names, through paired identities. -/
inductive Chain.Matches (p : Pairing) : Chain → Chain → Prop
  | root : Matches p .root .root
  | child {left right : Chain} {name : Name} {a b : InodeId}
      (parents : Matches p left right) (ids : p a b) :
    Matches p (.child left name a) (.child right name b)

namespace Nodes

/-- Trees in which paired identities stand for matching inodes, and all inodes
are paired. -/
structure Matches (p : Pairing) (left right : Nodes) : Prop where
  at_pair : ∀ {a b}, p a b → Option.Rel (Inode.Matches p) (left a) (right b)
  left_total : ∀ {a inode}, left a = some inode → ∃ b, p a b
  right_total : ∀ {b inode}, right b = some inode → ∃ a, p a b

end Nodes

theorem Inode.matches_same (inode : Inode) : inode.Matches .same inode where
  id := rfl
  name := rfl
  parent := by cases inode.parent; exacts [.none, .some rfl]
  permission := rfl
  content := by
    cases inode.content with
    | directory directory =>
      refine .directory ⟨fun name => ?_, rfl, rfl⟩
      cases directory.children[name]?
      exacts [.none, .some rfl]
    | file file => exact .file file
    | symlink target => exact .symlink target

theorem Nodes.matches_same (nodes : Nodes) : nodes.Matches .same nodes where
  at_pair {a b} hab := by
    obtain rfl : a = b := hab
    cases nodes a with
    | none => exact .none
    | some inode => exact .some inode.matches_same
  left_total {a _} _ := ⟨a, rfl⟩
  right_total {b _} _ := ⟨b, rfl⟩

theorem Nodes.Matches.set {p : Pairing} {left right : Nodes}
    (nodes : left.Matches p right) {a b : InodeId} (ids : p a b)
    {found found' : Option Inode}
    (hfound : Option.Rel (Inode.Matches p) found found') :
    (left.set a found).Matches p (right.set b found') where
  at_pair {x y} hxy := by
    rw [Nodes.set_apply, Nodes.set_apply]
    by_cases h : x = a
    · rw [if_pos h, if_pos ((Pairing.left_eq_iff hxy ids).1 h)]
      exact hfound
    · rw [if_neg h, if_neg fun h' => h ((Pairing.left_eq_iff hxy ids).2 h')]
      exact nodes.at_pair hxy
  left_total {x inode} hx := by
    rw [Nodes.set_apply] at hx
    by_cases h : x = a
    · exact ⟨b, h ▸ ids⟩
    · rw [if_neg h] at hx
      exact nodes.left_total hx
  right_total {y inode} hy := by
    rw [Nodes.set_apply] at hy
    by_cases h : y = b
    · exact ⟨a, h ▸ ids⟩
    · rw [if_neg h] at hy
      exact nodes.right_total hy

section Maps

variable {p : Pairing} {left right : Std.ExtTreeMap Name InodeId}

theorem keys_eq_of_rel
    (h : ∀ name : Name, Option.Rel p left[name]? right[name]?) :
    left.keys = right.keys := by
  have hmem (name : Name) : name ∈ left.keys ↔ name ∈ right.keys := by
    rw [Std.ExtTreeMap.mem_keys, Std.ExtTreeMap.mem_keys,
      ← Std.ExtTreeMap.isSome_getElem?_iff_mem,
      ← Std.ExtTreeMap.isSome_getElem?_iff_mem, isSome_of_rel (h name)]
  refine List.Perm.eq_of_pairwise ?_ left.ordered_keys right.ordered_keys
    ((List.perm_ext_iff_of_nodup left.nodup_keys right.nodup_keys).2 hmem)
  intro x y _ _ hlt hgt
  rw [Std.OrientedCmp.gt_iff_lt.symm, hlt] at hgt
  cases hgt

/-- Maps that agree name by name list their entries in the same order. -/
theorem forall₂_toList
    (h : ∀ name : Name, Option.Rel p left[name]? right[name]?) :
    List.Forall₂ (fun entry entry' => entry.1 = entry'.1 ∧
      p entry.2 entry'.2) left.toList
      right.toList := by
  have hkeys : left.toList.map Prod.fst = right.toList.map Prod.fst := by
    rw [Std.ExtTreeMap.map_fst_toList_eq_keys,
      Std.ExtTreeMap.map_fst_toList_eq_keys, keys_eq_of_rel h]
  have hleft : ∀ entry ∈ left.toList, left[entry.1]? = some entry.2 :=
    fun entry hentry => Std.ExtTreeMap.mem_toList_iff_getElem?_eq_some.1 hentry
  have hright : ∀ entry ∈ right.toList, right[entry.1]? = some entry.2 :=
    fun entry hentry => Std.ExtTreeMap.mem_toList_iff_getElem?_eq_some.1 hentry
  generalize left.toList = entries at hkeys hleft ⊢
  generalize right.toList = entries' at hkeys hright ⊢
  induction entries generalizing entries' with
  | nil =>
    rw [List.map_nil, eq_comm, List.map_eq_nil_iff] at hkeys
    rw [hkeys]
    exact .nil
  | cons entry entries ih =>
    cases entries' with
    | nil => cases hkeys
    | cons entry' entries' =>
      obtain ⟨hname, hrest⟩ := List.cons.inj hkeys
      obtain ⟨hfirst, hleft⟩ := List.forall_mem_cons.1 hleft
      obtain ⟨hfirst', hright⟩ := List.forall_mem_cons.1 hright
      refine .cons ⟨hname, ?_⟩ (ih hleft entries' hrest hright)
      have hrel := h entry.1
      rw [hfirst, hname, hfirst'] at hrel
      exact Option.rel_some_some.1 hrel

end Maps

namespace Directory.Matches

variable {p : Pairing} {left right : Directory} {name : Name} {a b : InodeId}

theorem insert (directories : left.Matches p right) (ids : p a b) :
    Directory.Matches p { left with children := left.children.insert name a }
      { right with children := right.children.insert name b } where
  children x := by
    by_cases h : x = name
    · subst h
      simpa using ids
    · have hne : compare name x ≠ .eq :=
        fun heq => h (Std.LawfulEqCmp.eq_of_compare heq).symm
      simpa [Std.ExtTreeMap.getElem?_insert, hne] using directories.children x
  limits := directories.limits
  policy := directories.policy

theorem erase (directories : left.Matches p right) :
    Directory.Matches p { left with children := left.children.erase name }
      { right with children := right.children.erase name } where
  children x := by
    by_cases h : x = name
    · subst h
      simp
    · have hne : compare name x ≠ .eq :=
        fun heq => h (Std.LawfulEqCmp.eq_of_compare heq).symm
      simpa [Std.ExtTreeMap.getElem?_erase, hne] using directories.children x
  limits := directories.limits
  policy := directories.policy

theorem contains (directories : left.Matches p right) :
    left.children.contains name = right.children.contains name := by
  rw [Std.ExtTreeMap.contains_eq_isSome_getElem?,
    Std.ExtTreeMap.contains_eq_isSome_getElem?,
    isSome_of_rel (directories.children name)]

end Directory.Matches

namespace Inode.Matches

variable {p : Pairing} {left right : Inode} (inodes : left.Matches p right)

include inodes

theorem kinds :
    (∃ directory directory', left.content = .directory directory ∧
        right.content = .directory directory' ∧
      directory.Matches p directory') ∨
      (∃ file, left.content = .file file ∧ right.content = .file file) ∨
      ∃ target, left.content = .symlink target ∧
        right.content = .symlink target := by
  have hcontent := inodes.content
  generalize left.content = content at hcontent ⊢
  generalize right.content = content' at hcontent ⊢
  cases hcontent with
  | directory directories => exact .inl ⟨_, _, rfl, rfl, directories⟩
  | file file => exact .inr (.inl ⟨file, rfl, rfl⟩)
  | symlink target => exact .inr (.inr ⟨target, rfl, rfl⟩)

theorem asDirectory :
    Option.Rel (Directory.Matches p) left.asDirectory right.asDirectory := by
  unfold Inode.asDirectory
  rcases inodes.kinds with ⟨_, _, h, h', directories⟩ | ⟨_, h, h'⟩ |
    ⟨_, h, h'⟩ <;> rw [h, h']
  · exact .some directories
  · exact .none
  · exact .none

theorem asFile : left.asFile = right.asFile := by
  unfold Inode.asFile
  rcases inodes.kinds with ⟨_, _, h, h', _⟩ | ⟨_, h, h'⟩ | ⟨_, h, h'⟩ <;>
    rw [h, h']

theorem isDirectory : left.isDirectory = right.isDirectory :=
  isSome_of_rel inodes.asDirectory

theorem entries :
    List.Forall₂ (fun entry entry' => entry.1 = entry'.1 ∧
      p entry.2 entry'.2) left.entries
      right.entries := by
  have hdirectory := inodes.asDirectory
  unfold Inode.entries
  generalize left.asDirectory = directory at hdirectory
  generalize right.asDirectory = directory' at hdirectory
  cases hdirectory with
  | some directories => exact forall₂_toList directories.children
  | none => exact .nil

theorem entries_eq_nil_iff : left.entries = [] ↔ right.entries = [] := by
  rw [← List.length_eq_zero_iff, ← List.length_eq_zero_iff,
    inodes.entries.length_eq]

theorem children : List.Forall₂ p left.children right.children := by
  unfold Inode.children
  rw [List.forall₂_map_left_iff, List.forall₂_map_right_iff]
  exact inodes.entries.imp fun _ _ h => h.2

theorem ownUsage : left.ownUsage = right.ownUsage := by
  unfold Inode.ownUsage
  rcases inodes.kinds with ⟨_, _, h, h', _⟩ | ⟨_, h, h'⟩ | ⟨_, h, h'⟩ <;>
    rw [h, h']

theorem limits :
    left.quota.map Quota.limits = right.quota.map Quota.limits := by
  have hdirectory := inodes.asDirectory
  unfold Inode.quota
  generalize left.asDirectory = directory at hdirectory
  generalize right.asDirectory = directory' at hdirectory
  cases hdirectory with
  | some directories => exact directories.limits
  | none => rfl

theorem withFile (file : File) :
    (left.withFile file).Matches p (right.withFile file) :=
  { inodes with content := .file file }

theorem withDirectory {directory directory' : Directory}
    (directories : directory.Matches p directory') :
    (left.withDirectory directory).Matches p (right.withDirectory directory') :=
  { inodes with content := .directory directories }

theorem withoutChild (name : Name) :
    (left.withoutChild name).Matches p (right.withoutChild name) := by
  unfold Inode.withoutChild
  rcases inodes.kinds with ⟨_, _, h, h', directories⟩ | ⟨_, h, h'⟩ |
    ⟨_, h, h'⟩ <;> rw [h, h']
  · exact inodes.withDirectory directories.erase
  · exact inodes
  · exact inodes

theorem withName (name : Name) :
    Inode.Matches p { left with name } { right with name } :=
  { inodes with name := rfl }

end Inode.Matches

namespace Chain.Matches

variable {p : Pairing} {left right : Chain} (chains : left.Matches p right)

include chains

theorem last : p left.last right.last := by
  cases chains with
  | root => exact p.root
  | child _ ids => exact ids

theorem names : left.names = right.names := by
  induction chains with
  | root => rfl
  | child _ _ ih => rw [Chain.names, Chain.names, ih]

theorem path : left.path = right.path :=
  congrArg Path.ofNames chains.names

theorem length : left.length = right.length := by
  induction chains with
  | root => rfl
  | child _ _ ih => rw [Chain.length, Chain.length, ih]

theorem lastName : left.lastName = right.lastName := by
  cases chains <;> rfl

theorem parent? : Option.Rel (Chain.Matches p) left.parent? right.parent? := by
  cases chains with
  | root => exact .none
  | child parents => exact .some parents

theorem ids : List.Forall₂ p left.ids right.ids := by
  induction chains with
  | root => exact .cons p.root .nil
  | child _ ids ih => exact List.rel_append ih (.cons ids .nil)

theorem contains {a b : InodeId} (hab : p a b) :
    left.contains a = right.contains b := by
  have hids := chains.ids
  unfold Chain.contains
  generalize left.ids = xs at hids
  generalize right.ids = ys at hids
  induction hids with
  | nil => rfl
  | cons hxy _ ih =>
    rw [List.contains_cons, List.contains_cons, ih]
    congr 1
    rw [Bool.eq_iff_iff, beq_iff_eq, beq_iff_eq]
    exact Pairing.left_eq_iff hab hxy

theorem ancestry :
    List.Forall₂ (Chain.Matches p) left.ancestry right.ancestry := by
  induction chains with
  | root => exact .cons .root .nil
  | child parents ids ih => exact .cons (.child parents ids) ih

end Chain.Matches

end QuotaTree
