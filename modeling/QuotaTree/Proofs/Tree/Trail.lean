/-
The trail of symlinks that a path leads along.  Where a path ends in a symlink,
the link points to another path, which may end in a symlink again; a trail that
comes back to a link that it has been at goes round for ever.
-/
import QuotaTree.Proofs.Tree.Walk

namespace QuotaTree

namespace Inode

def target? (inode : Inode) : Option String :=
  match inode.content with
  | .symlink target => some target
  | _ => none

theorem target?_eq_some {inode : Inode} {target : String} :
    inode.target? = some target ↔ inode.content = .symlink target := by
  unfold target?
  cases inode.content <;> simp

theorem target?_eq_none {inode : Inode} :
    inode.target? = none ↔ ∀ target, inode.content ≠ .symlink target := by
  unfold target?
  cases inode.content <;> simp

end Inode

namespace Nodes

def target? (nodes : Nodes) (id : InodeId) : Option String :=
  (nodes id).bind Inode.target?

/-- A symlink at the end of a path: the names that lead to it, and where it
points. -/
structure Link where
  names : List Name
  id : InodeId
  target : String
  deriving DecidableEq

/-- The path that a symlink stands for; from the directory that holds it, unless
it is absolute. -/
def Link.onward (link : Link) : String :=
  if link.target.toList.head? = some '/' then link.target
  else Path.child (Path.ofNames link.names.dropLast) link.target

def linkAt (nodes : Nodes) (path : String) : Option Link := do
  let names ← (Path.components path).toOption
  let id ← nodes.walk names .root
  let target ← nodes.target? id
  pure { names, id, target }

/-- The path that is left of a path when symlinks at the end have been replaced
a number of times. -/
def pathAfter (nodes : Nodes) : Nat → String → Option String
  | 0, path => some path
  | count + 1, path =>
    (nodes.linkAt path).bind fun link => nodes.pathAfter count link.onward

/-- The symlink that is met when so many have been replaced. -/
def linkAfter (nodes : Nodes) (count : Nat) (path : String) : Option Link :=
  (nodes.pathAfter count path).bind nodes.linkAt

variable {nodes : Nodes} {path : String} {link : Link} {id : InodeId}
  {target : String} {count more first second : Nat}

theorem target?_eq_some :
    nodes.target? id = some target ↔
      ∃ inode, nodes id = some inode ∧ inode.content = .symlink target := by
  simp only [target?, Option.bind_eq_some_iff, Inode.target?_eq_some]

theorem linkAt_eq_some :
    nodes.linkAt path = some link ↔ Path.components path = .ok link.names ∧
      nodes.walk link.names .root = some link.id ∧
      nodes.target? link.id = some link.target := by
  unfold linkAt
  cases Path.components path with
  | error error => simp [Except.toOption]
  | ok names =>
    simp only [Except.toOption, Option.bind_eq_bind, Option.bind_some,
      Option.bind_eq_some_iff, pure, Option.some_inj, Except.ok.injEq]
    constructor
    · rintro ⟨id, hwalk, target, htarget, rfl⟩
      exact ⟨rfl, hwalk, htarget⟩
    · rintro ⟨rfl, hwalk, htarget⟩
      exact ⟨link.id, hwalk, link.target, htarget, rfl⟩

theorem pathAfter_add (nodes : Nodes) (count more : Nat) (path : String) :
    nodes.pathAfter (count + more) path =
      (nodes.pathAfter count path).bind (nodes.pathAfter more) := by
  induction count generalizing path with
  | zero => rw [Nat.zero_add]; rfl
  | succ count ih =>
    rw [Nat.succ_add, pathAfter, pathAfter, Option.bind_assoc]
    exact congrArg _ (funext fun link => ih link.onward)

theorem linkAfter_add (nodes : Nodes) (count more : Nat) (path : String) :
    nodes.linkAfter (count + more) path =
      (nodes.pathAfter count path).bind (nodes.linkAfter more) := by
  rw [linkAfter, pathAfter_add, Option.bind_assoc]
  rfl

/-- Replacing goes on where a symlink is met. -/
theorem pathAfter_succ :
    nodes.pathAfter (count + 1) path =
      (nodes.linkAfter count path).map Link.onward := by
  rw [pathAfter_add, linkAfter]
  cases nodes.pathAfter count path with
  | none => rfl
  | some last =>
    rw [Option.bind_some, Option.bind_some, Option.map_eq_bind]
    rfl

theorem isSome_linkAfter_of_le (h : (nodes.linkAfter count path).isSome)
    (le : more ≤ count) : (nodes.linkAfter more path).isSome := by
  induction count with
  | zero => rwa [Nat.le_zero.1 le]
  | succ count ih =>
    rcases Nat.le_succ_iff.1 le with hle | rfl
    · apply ih _ hle
      rw [linkAfter, pathAfter_succ] at h
      cases hlink : nodes.linkAfter count path with
      | none =>
        rw [hlink] at h
        cases h
      | some link => rfl
    · exact h

/-- A trail ends at a path that ends in no symlink, or another symlink is
met. -/
theorem exists_pathAfter_or (nodes : Nodes) (count : Nat) (path : String) :
    (∃ steps ≤ count, ∃ last, nodes.pathAfter steps path = some last ∧
      nodes.linkAt last = none) ∨
      (nodes.linkAfter count path).isSome := by
  induction count with
  | zero =>
    cases hmet : nodes.linkAt path with
    | none => exact .inl ⟨0, Nat.le_refl _, path, rfl, hmet⟩
    | some link =>
      right
      rw [linkAfter, pathAfter, Option.bind_some, hmet]
      rfl
  | succ count ih =>
    rcases ih with ⟨steps, hle, hlast⟩ | hmet
    · exact .inl ⟨steps, Nat.le_succ_of_le hle, hlast⟩
    · obtain ⟨link, hlink⟩ := Option.isSome_iff_exists.1 hmet
      have hafter : nodes.pathAfter (count + 1) path = some link.onward := by
        rw [pathAfter_succ, hlink]
        rfl
      cases hnext : nodes.linkAt link.onward with
      | none =>
        exact .inl ⟨count + 1, Nat.le_refl _, link.onward, hafter, hnext⟩
      | some next =>
        right
        rw [linkAfter, hafter, Option.bind_some, hnext]
        rfl

/-- What names lead to is the end of a chain of these names. -/
theorem exists_leads_of_walk {start : Chain} {names : List Name}
    (leads : Chain.Leads nodes start)
    (h : nodes.walk names start.last = some id) :
    ∃ chain, Chain.Leads nodes chain ∧ chain.names = start.names ++ names ∧
      chain.last = id := by
  induction names generalizing start with
  | nil => exact ⟨start, leads, (List.append_nil _).symm, Option.some.inj h⟩
  | cons name rest ih =>
    obtain ⟨next, hentry, hrest⟩ := Option.bind_eq_some_iff.1 h
    have hnext : nodes.walk rest (start.child name next).last = some id := hrest
    obtain ⟨chain, hleads, hnames, hlast⟩ := ih (.child leads hentry) hnext
    refine ⟨chain, hleads, ?_, hlast⟩
    rw [hnames, Chain.names_child, List.append_assoc]
    rfl

/-- A symlink has one place only, and points to one target. -/
theorem Link.eq_of_id (wf : nodes.WellFormed) {other : Link} {path' : String}
    (h : nodes.linkAt path = some link) (h' : nodes.linkAt path' = some other)
    (same : link.id = other.id) : link = other := by
  obtain ⟨_, hwalk, htarget⟩ := linkAt_eq_some.1 h
  obtain ⟨_, hwalk', htarget'⟩ := linkAt_eq_some.1 h'
  obtain ⟨chain, hleads, hnames, hlast⟩ :=
    @exists_leads_of_walk nodes _ .root _ .root hwalk
  obtain ⟨chain', hleads', hnames', hlast'⟩ :=
    @exists_leads_of_walk nodes _ .root _ .root hwalk'
  have hchain : chain = chain' :=
    hleads.unique wf hleads' (by rw [hlast, hlast', same])
  obtain ⟨names, id, target⟩ := link
  obtain ⟨names', id', target'⟩ := other
  obtain rfl : id = id' := same
  obtain rfl : names = names' := by
    have hboth := hnames.symm.trans (hchain ▸ hnames')
    simpa using hboth
  rw [htarget, Option.some_inj] at htarget'
  obtain rfl : target = target' := htarget'
  rfl

/-- A trail that comes back to a symlink goes round, and never ends. -/
theorem isSome_linkAfter_of_cycle (wf : nodes.WellFormed) {left right : Link}
    (lt : first < second) (hfirst : nodes.linkAfter first path = some left)
    (hsecond : nodes.linkAfter second path = some right)
    (same : left.id = right.id) (count : Nat) :
    (nodes.linkAfter count path).isSome := by
  obtain ⟨early, _, hleft⟩ := Option.bind_eq_some_iff.1 hfirst
  obtain ⟨late, _, hright⟩ := Option.bind_eq_some_iff.1 hsecond
  obtain rfl := Link.eq_of_id wf hleft hright same
  -- from the same symlink the trail goes on in the same way
  have hround (more : Nat) :
      nodes.linkAfter (second + 1 + more) path =
        nodes.linkAfter (first + 1 + more) path := by
    rw [linkAfter_add, linkAfter_add, pathAfter_succ, pathAfter_succ, hfirst,
      hsecond]
  induction count using Nat.strong_induction_on with
  | _ count ih =>
    rcases Nat.lt_or_ge second count with hlt | hle
    · obtain ⟨more, rfl⟩ := Nat.exists_eq_add_of_le hlt
      rw [Nat.succ_eq_add_one, hround]
      exact ih _ (by omega)
    · exact isSome_linkAfter_of_le (by rw [hsecond]; rfl) hle

end Nodes

end QuotaTree
