/-
Where paths lead does not depend on the data of files.  When nothing but the
file of an inode is stored anew, every path goes on leading where it led, by
names and by numbers and through symlinks.
-/
import QuotaTree.Proofs.Request.Following

namespace QuotaTree

open Nodes Outcome

variable {view other : View} {path : String} {α : Type}

/-- An inode is shown alike, or as a file of which the data may differ. -/
def View.Refiles (view other : View) (id : InodeId) : Prop :=
  other.find id = view.find id ∨
  ∃ inode file new, view.find id = .ok (some inode) ∧
    inode.content = .file file ∧ other.find id = .ok (some (inode.withFile new))

/-- Views that differ in the data of files only. -/
structure View.Refiled (view other : View) : Prop where
  find : ∀ id, view.Refiles other id
  size : other.size = view.size

namespace View.Refiled

variable (refiled : view.Refiled other)

include refiled

/-- A reading goes on alike if it does not look at the data of files. -/
theorem get_bind {next : Inode → Except Error α}
    {next' : Inode → Except Error α} (same : ∀ inode, next' inode = next inode)
    (blind : ∀ (inode : Inode) (file new : File), inode.content = .file file →
      next (inode.withFile new) = next inode)
    (id : InodeId) : (other.get id >>= next') = (view.get id >>= next) := by
  obtain rfl : next' = next := funext same
  rcases refiled.find id with hsame | ⟨inode, file, new, hfind, hcontent, hnew⟩
  · rw [(Chain.Shows.get hsame : other.get id = view.get id)]
  · have hview : view.get id = .ok inode := by
      rw [View.get, hfind]
      rfl
    have hother : other.get id = .ok (inode.withFile new) := by
      rw [View.get, hnew]
      rfl
    rw [hview, hother]
    exact blind inode file new hcontent

theorem parentOf (id : InodeId) : other.parentOf id = view.parentOf id :=
  refiled.get_bind (fun _ => rfl) (fun _ _ _ _ => rfl) id

theorem namesDownTo (steps : Nat) (id : InodeId) (below : List Name) :
    other.namesDownTo steps id below = view.namesDownTo steps id below := by
  induction steps generalizing id below with
  | zero => rfl
  | succ steps ih =>
    refine refiled.get_bind (fun inode => ?_) (fun _ _ _ _ => rfl) id
    cases inode.parent with
    | none => rfl
    | some parent => exact ih parent _

theorem fullPath (id : InodeId) : other.fullPath id = view.fullPath id := by
  rw [View.fullPath, View.fullPath, refiled.size, refiled.namesDownTo]

/-- A path by number stands for the same path. -/
theorem resolveReserved (path : String) :
    Path.resolveReserved other path = Path.resolveReserved view path := by
  unfold Path.resolveReserved Path.ofReserved
  simp only [refiled.parentOf, refiled.fullPath]

theorem descend (path : String) (start : Chain) (names : List Name) :
    Chain.descend other path start names =
      Chain.descend view path start names := by
  induction names generalizing start with
  | nil => rfl
  | cons name rest ih =>
    rw [Chain.descend, Chain.descend]
    refine refiled.get_bind (fun inode => ?_)
      (fun inode file new hcontent => ?_) start.last
    · cases inode.content with
      | file => rfl
      | symlink => rfl
      | directory directory =>
        dsimp only
        cases directory.children[name]? with
        | none => rfl
        | some id => exact ih (start.child name id)
    · rw [Inode.withFile, hcontent]

theorem arrive {hops : Nat} {chain : Chain} (rest : List Name)
    (onward : ∀ target, Chain.onward other path chain target hops =
      Chain.onward view path chain target hops) :
    Chain.arrive other hops path chain rest =
      Chain.arrive view hops path chain rest := by
  cases rest with
  | cons => rfl
  | nil =>
    refine refiled.get_bind (fun inode => ?_)
      (fun inode file new hcontent => ?_) chain.last
    · cases inode.content with
      | file => rfl
      | directory => rfl
      | symlink target => exact onward target
    · rw [Inode.withFile, hcontent]

theorem follow (hops : Nat) (path : String) :
    Chain.follow other hops path = Chain.follow view hops path := by
  induction hops generalizing path with
  | zero =>
    have honward (path : String) (chain : Chain) (target : String) :
        Chain.onward other path chain target 0 =
          Chain.onward view path chain target 0 :=
      rfl
    rw [Chain.follow_eq, Chain.follow_eq]
    simp only [refiled.descend,
      refiled.arrive _ fun target => honward path _ target]
  | succ hops ih =>
    have honward (path : String) (chain : Chain) (target : String) :
        Chain.onward other path chain target (hops + 1) =
          Chain.onward view path chain target (hops + 1) :=
      ih _
    rw [Chain.follow_eq, Chain.follow_eq]
    simp only [refiled.descend,
      refiled.arrive _ fun target => honward path _ target]

theorem resolve (path : String) (following : Bool) :
    Chain.resolve other path following = Chain.resolve view path following := by
  unfold Chain.resolve Chain.resolveExisting
  simp only [refiled.follow, refiled.descend]

theorem get_of_other {id : InodeId} {inode : Inode}
    (h : other.get id = .ok inode) :
    ∃ old, view.get id = .ok old ∧
      ∀ target, old.content = .symlink target ↔
        inode.content = .symlink target := by
  rcases refiled.find id with hsame | ⟨old, file, new, hfind, hcontent, hnew⟩
  · exact ⟨inode, (Chain.Shows.get hsame).symm.trans h, fun _ => Iff.rfl⟩
  · rw [View.get, hnew] at h
    obtain rfl := Except.ok.inj h
    refine ⟨old, ?_, fun target => ?_⟩
    · rw [View.get, hfind]
      rfl
    · simp only [hcontent, Inode.withFile, reduceCtorEq]

/-- The same symlinks are followed. -/
theorem follows {hops : Nat} {links : List Chain} {found : Chain × List Name}
    (h : Chain.Follows other hops path links found) :
    Chain.Follows view hops path links found := by
  induction h with
  | ends components descends stops =>
    refine .ends components (refiled.descend _ _ _ ▸ descends) fun hrest => ?_
    obtain ⟨inode, hget, hnot⟩ := stops hrest
    obtain ⟨old, hold, hcontent⟩ := refiled.get_of_other hget
    exact ⟨old, hold, fun target h => hnot target ((hcontent target).1 h)⟩
  | link components descends get content _ ih =>
    obtain ⟨old, hold, hcontent⟩ := refiled.get_of_other get
    exact .link components (refiled.descend _ _ _ ▸ descends) hold
      ((hcontent _).2 content) ih

end View.Refiled

/-- When the file of an inode is stored anew, the table differs in the data of
this file only. -/
theorem InodeTable.refiled_of_find? {table after : InodeTable} {id : InodeId}
    {inode : Inode} {file new : File} (live : table.find? id = some inode)
    (content : inode.content = .file file)
    (find : ∀ x, after.find? x = if x = id then some (inode.withFile new)
      else table.find? x)
    (size : after.size = table.size) : table.view.Refiled after.view where
  find x := by
    by_cases h : x = id
    · refine .inr ⟨inode, file, new, ?_, content, ?_⟩
      · exact congrArg Except.ok (h ▸ live)
      · exact congrArg Except.ok ((find x).trans (if_pos h))
    · exact .inl (congrArg Except.ok ((find x).trans (if_neg h)))
  size := size

namespace Namespace

variable {ns ns' : Namespace}

/-- A path leads to an inode, symlinks followed, and the locks of a request
leave none of them out. -/
def Reaches (ns : Namespace) (path : String) (chain : Chain) : Prop :=
  ns.leadsTo path = .ok chain ∧ ¬ ns.Strays .path path

/-- A path goes on leading to the same inode when the data of a file has
changed. -/
theorem Reaches.refiled {chain : Chain} (reaches : ns.Reaches path chain)
    (refiled : ns.table.view.Refiled ns'.table.view) :
    ns'.Reaches path chain := by
  obtain ⟨hleads, hstays⟩ := reaches
  constructor
  · rw [leadsTo] at hleads ⊢
    simp only [refiled.resolveReserved, refiled.resolve]
    exact hleads
  · intro hstrays
    obtain ⟨resolved, first, second, later, found, hresolved, hfollows⟩ :=
      strays_path_iff.1 hstrays
    rw [refiled.resolveReserved] at hresolved
    exact hstays (strays_path_iff.2 ⟨resolved, first, second, later, found,
      hresolved, refiled.follows hfollows⟩)

end Namespace

end QuotaTree
