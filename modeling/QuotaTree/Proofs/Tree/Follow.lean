/-
The symlinks that are followed for a path, one after the other.  A path that
leads anywhere follows no symlink twice, and a view that holds some inodes back
leads to the same place as long as it shows all those on the way.
-/
import QuotaTree.Proofs.Tree.Chain

namespace QuotaTree

namespace Chain

variable {nodes : Nodes} {view other : View} {hops more : Nat} {path : String}
  {links : List Chain} {chain start link : Chain} {names rest : List Name}
  {found : Chain × List Name}

/-- The chains to the symlinks that are met at the end of a path, and where the
last one leads. -/
inductive Follows (view : View) :
    Nat → String → List Chain → Chain × List Name → Prop
  | ends {hops : Nat} {path : String} {names rest : List Name} {chain : Chain}
      (components : Path.components path = .ok names)
      (descends : descend view path .root names = .ok (chain, rest))
      (stops : rest = [] → ∃ inode, view.get chain.last = .ok inode ∧
        ∀ target, inode.content ≠ .symlink target) :
      Follows view hops path [] (chain, rest)
  | link {hops : Nat} {path target : String} {names : List Name} {chain : Chain}
      {inode : Inode} {links : List Chain} {found : Chain × List Name}
      (components : Path.components path = .ok names)
      (descends : descend view path .root names = .ok (chain, []))
      (get : view.get chain.last = .ok inode)
      (content : inode.content = .symlink target)
      (next : Follows view hops (chain.targetPath target) links found) :
    Follows view (hops + 1) path (chain :: links) found

/-- What comes after a symlink at the end of a path, if there may be another
hop. -/
def onward (view : View) (path : String) (chain : Chain) (target : String) :
    Nat → Except Error (Chain × List Name)
  | 0 => throw (.unresolvedLink path chain.path)
  | hops + 1 => follow view hops (chain.targetPath target)

/-- What is found at the end of a walk is returned, unless it is a symlink. -/
def arrive (view : View) (hops : Nat) (path : String) (chain : Chain) :
    List Name → Except Error (Chain × List Name)
  | name :: rest => pure (chain, name :: rest)
  | [] => do
    let inode ← view.get chain.last
    match inode.content with
    | .symlink target => onward view path chain target hops
    | _ => pure (chain, [])

theorem follow_eq :
    follow view hops path = (do
      let names ← Path.components path
      let (chain, rest) ← descend view path .root names
      arrive view hops path chain rest) := by
  cases hops with
  | zero =>
    rw [follow]
    refine congrArg (Path.components path >>= ·) (funext fun names => ?_)
    refine congrArg (descend view path .root names >>= ·)
      (funext fun found => ?_)
    obtain ⟨chain, rest⟩ := found
    cases rest <;> rfl
  | succ hops =>
    rw [follow]
    refine congrArg (Path.components path >>= ·) (funext fun names => ?_)
    refine congrArg (descend view path .root names >>= ·)
      (funext fun found => ?_)
    obtain ⟨chain, rest⟩ := found
    cases rest <;> rfl

/-- Following starts where a walk that follows nothing ends. -/
theorem follow_eq_bind :
    follow view hops path = (do
      let found ← resolveExisting view path false
      arrive view hops path found.1 found.2) := by
  rw [follow_eq]
  unfold resolveExisting
  simp only [Bool.false_eq_true, if_false]
  cases Path.components path with
  | error => rfl
  | ok names => cases descend view path .root names <;> rfl

theorem arrive_eq_ok :
    arrive view hops path chain rest = .ok found ↔
      ((rest = [] → ∃ inode, view.get chain.last = .ok inode ∧
          ∀ target, inode.content ≠ .symlink target) ∧ found = (chain, rest)) ∨
        ∃ inode target, rest = [] ∧ view.get chain.last = .ok inode ∧
          inode.content = .symlink target ∧
          onward view path chain target hops = .ok found := by
  cases rest with
  | cons name rest => simp [arrive, eq_comm (b := found)]
  | nil =>
    simp only [arrive, Outcome.except_bind_eq_ok, forall_const, true_and]
    constructor
    · rintro ⟨inode, hget, hend⟩
      cases hcontent : inode.content with
      | symlink target =>
        simp only [hcontent] at hend
        exact .inr ⟨inode, target, hget, hcontent, hend⟩
      | file file =>
        simp only [hcontent, Outcome.except_pure_eq_ok] at hend
        exact .inl ⟨⟨inode, hget, by simp [hcontent]⟩, hend.symm⟩
      | directory directory =>
        simp only [hcontent, Outcome.except_pure_eq_ok] at hend
        exact .inl ⟨⟨inode, hget, by simp [hcontent]⟩, hend.symm⟩
    · rintro (⟨⟨inode, hget, hnot⟩, rfl⟩ | ⟨inode, target, hget, hcontent,
        hnext⟩)
      · refine ⟨inode, hget, ?_⟩
        cases hcontent : inode.content with
        | symlink target => exact absurd hcontent (hnot target)
        | file file => rfl
        | directory directory => rfl
      · refine ⟨inode, hget, ?_⟩
        simp only [hcontent]
        exact hnext

theorem follow_eq_ok : follow view hops path = .ok found ↔
    ∃ links, Follows view hops path links found := by
  induction hops generalizing path with
  | zero =>
    rw [follow_eq]
    simp only [Outcome.except_bind_eq_ok, Prod.exists, arrive_eq_ok]
    constructor
    · rintro ⟨names, hnames, chain, rest, hdescend,
        ⟨hstops, rfl⟩ | ⟨_, _, _, _, _, honward⟩⟩
      · exact ⟨[], .ends hnames hdescend hstops⟩
      · cases honward
    · rintro ⟨links, h⟩
      cases h with
      | ends components descends stops =>
        exact ⟨_, components, _, _, descends, .inl ⟨stops, rfl⟩⟩
  | succ hops ih =>
    rw [follow_eq]
    simp only [Outcome.except_bind_eq_ok, Prod.exists, arrive_eq_ok, onward, ih]
    constructor
    · rintro ⟨names, hnames, chain, rest, hdescend, ⟨hstops, rfl⟩ |
        ⟨inode, target, rfl, hget, hcontent, links, hlinks⟩⟩
      · exact ⟨[], .ends hnames hdescend hstops⟩
      · exact ⟨chain :: links, .link hnames hdescend hget hcontent hlinks⟩
    · rintro ⟨links, h⟩
      cases h with
      | ends components descends stops =>
        exact ⟨_, components, _, _, descends, .inl ⟨stops, rfl⟩⟩
      | link components descends get content next =>
        exact ⟨_, components, _, _, descends,
          .inr ⟨_, _, rfl, get, content, _, next⟩⟩

namespace Follows

/-- Where a path leads does not depend on how many hops are left over. -/
theorem unique {others : List Chain} {found' : Chain × List Name}
    (h : Follows view hops path links found)
    (h' : Follows view more path others found') :
    links = others ∧ found = found' := by
  induction h generalizing more others found' with
  | ends components descends stops =>
    cases h' with
    | ends components' descends' _ =>
      obtain rfl := Except.ok.inj (components.symm.trans components')
      exact ⟨rfl, Except.ok.inj (descends.symm.trans descends')⟩
    | link components' descends' get' content' _ =>
      obtain rfl := Except.ok.inj (components.symm.trans components')
      cases Except.ok.inj (descends.symm.trans descends')
      obtain ⟨inode, hget, hnot⟩ := stops rfl
      obtain rfl := Except.ok.inj (hget.symm.trans get')
      exact absurd content' (hnot _)
  | link components descends get content _ ih =>
    cases h' with
    | ends components' descends' stops' =>
      obtain rfl := Except.ok.inj (components.symm.trans components')
      cases Except.ok.inj (descends.symm.trans descends')
      obtain ⟨inode, hget, hnot⟩ := stops' rfl
      obtain rfl := Except.ok.inj (hget.symm.trans get)
      exact absurd content (hnot _)
    | link components' descends' get' content' next' =>
      obtain rfl := Except.ok.inj (components.symm.trans components')
      cases Except.ok.inj (descends.symm.trans descends')
      obtain rfl := Except.ok.inj (get.symm.trans get')
      rw [content, Content.symlink.injEq] at content'
      subst content'
      obtain ⟨rfl, rfl⟩ := ih next'
      exact ⟨rfl, rfl⟩

/-- From each symlink on the way its target leads on to the same place. -/
theorem onward_of_mem (h : Follows view hops path links found)
    (mem : link ∈ links) :
    ∃ before after inode target more, links = before ++ link :: after ∧
      view.get link.last = .ok inode ∧ inode.content = .symlink target ∧
      Follows view more (link.targetPath target) after found := by
  induction h with
  | ends => cases mem
  | @link _ _ _ _ chain _ links _ _ _ get content next ih =>
    rcases List.mem_cons.1 mem with rfl | mem
    · exact ⟨[], links, _, _, _, rfl, get, content, next⟩
    · obtain ⟨before, after, inode, target, more, rfl, hget, hcontent, hnext⟩ :=
        ih mem
      exact ⟨chain :: before, after, inode, target, more, rfl, hget, hcontent,
        hnext⟩

/-- No symlink is followed twice, since it would lead back to itself for
ever. -/
theorem nodup (h : Follows view hops path links found) : links.Nodup := by
  induction h with
  | ends => exact List.nodup_nil
  | link components descends get content next ih =>
    refine List.nodup_cons.2 ⟨fun mem => ?_, ih⟩
    obtain ⟨before, after, inode, target, more, hlinks, hget, hcontent,
      hnext⟩ := next.onward_of_mem mem
    obtain rfl := Except.ok.inj (get.symm.trans hget)
    rw [content, Content.symlink.injEq] at hcontent
    subst hcontent
    obtain ⟨hsame, _⟩ := next.unique hnext
    have hlength := congrArg List.length hlinks
    rw [hsame, List.length_append, List.length_cons] at hlength
    omega

theorem leads (reads : view.Reads nodes)
    (h : Follows view hops path links found) :
    Leads nodes found.1 ∧ ∀ link ∈ links, Leads nodes link := by
  induction h with
  | ends _ descends => exact ⟨(Leads.descend reads .root descends).1, by simp⟩
  | link _ descends _ _ _ ih =>
    refine ⟨ih.1, fun link hlink => ?_⟩
    rcases List.mem_cons.1 hlink with rfl | hlink
    · exact (Leads.descend reads .root descends).1
    · exact ih.2 link hlink

end Follows

/-- A walk that stops before the end has come to an inode that is no symlink. -/
theorem stops_of_descend (h : descend view path start names = .ok (chain, rest))
    (left : rest ≠ []) : ∃ inode, view.get chain.last = .ok inode ∧
    ∀ target, inode.content ≠ .symlink target := by
  induction names generalizing start with
  | nil =>
    rw [descend, Outcome.except_pure_eq_ok] at h
    cases h
    exact absurd rfl left
  | cons name names ih =>
    obtain ⟨inode, hget, ⟨id, _, hrest⟩ | ⟨hnot, _, rfl, _⟩⟩ :=
      descend_cons_eq_ok.1 h
    · exact ih hrest
    · exact ⟨inode, hget, hnot⟩

/-- A path never leads to a symlink when those at its end are followed. -/
theorem Follows.stops (h : Follows view hops path links (chain, rest)) :
    ∃ inode, view.get chain.last = .ok inode ∧
      ∀ target, inode.content ≠ .symlink target := by
  generalize hfound : (chain, rest) = found at h
  induction h with
  | @ends _ _ _ rest' _ _ descends stops =>
    cases hfound
    by_cases hrest : rest = []
    · exact stops hrest
    · exact stops_of_descend descends hrest
  | link _ _ _ _ _ ih => exact ih hfound

namespace Leads

/-- The chain to an inode is determined by the inode. -/
theorem unique {chain' : Chain} (wf : nodes.WellFormed)
    (leads : Leads nodes chain) (leads' : Leads nodes chain')
    (h : chain.last = chain'.last) : chain = chain' := by
  induction leads generalizing chain' with
  | root => exact (((leads'.proper wf).last_eq_root_iff).1 h.symm).symm
  | @child parent name id above entry ih =>
    cases leads' with
    | root => exact ((Leads.child above entry).proper wf).last_eq_root_iff.1 h
    | @child parent' name' id' above' entry' =>
      obtain rfl : id = id' := h
      obtain ⟨holder, hholder, hchild⟩ := Nodes.entryAt_eq_some.1 entry
      obtain ⟨holder', hholder', hchild'⟩ := Nodes.entryAt_eq_some.1 entry'
      obtain ⟨hparent, rfl⟩ := wf.child_unique hholder hchild hholder' hchild'
      rw [ih above' hparent]

/-- All inodes on a chain but the last one are directories. -/
theorem isDirectory_of_mem (wf : nodes.WellFormed) (leads : Leads nodes chain)
    {x : InodeId} (mem : x ∈ chain.ids) (hne : x ≠ chain.last) :
    ∃ inode, nodes x = some inode ∧ inode.isDirectory = true := by
  induction leads with
  | root =>
    rw [ids, List.mem_singleton] at mem
    exact absurd mem hne
  | @child parent name id above entry ih =>
    rw [ids, List.mem_append, List.mem_singleton] at mem
    have hmem := mem.resolve_right hne
    by_cases hx : x = parent.last
    · subst hx
      exact wf.live_parent ((Leads.child above entry).link wf)
    · exact ih hmem hx

end Leads

theorem resolve_of_error {error : Error} {following : Bool}
    (h : resolveExisting view path following = .error error) :
    resolve view path following = .error error := by
  rw [resolve, h]
  rfl

theorem resolve_of_ends {following : Bool}
    (h : resolveExisting view path following = .ok (chain, [])) :
    resolve view path following = .ok chain := by
  rw [resolve, h]
  rfl

/-- Where a path leads to anything but a symlink, nothing is followed. -/
theorem follows_of_resolve {inode : Inode}
    (h : resolve view path false = .ok chain)
    (get : view.get chain.last = .ok inode)
    (stops : ∀ target, inode.content ≠ .symlink target) :
    Follows view hops path [] (chain, []) := by
  obtain ⟨names, hnames, hdescend⟩ :=
    resolveExisting_eq_ok.1 (resolve_eq_ok.1 h)
  exact .ends hnames hdescend fun _ => ⟨inode, get, stops⟩

/-- A path of which something is missing is not found. -/
theorem resolve_of_missing {following : Bool} {name : Name}
    (h : resolveExisting view path following = .ok (chain, name :: rest)) :
    resolve view path following =
      .error (.notFound path (Path.joinNames (name :: rest))) := by
  rw [resolve, h]
  rfl

theorem last_mem_ids (chain : Chain) : chain.last ∈ chain.ids :=
  List.mem_of_getLast? chain.getLast?_ids

/-- A walk goes down from where it starts. -/
theorem ids_subset_of_descend
    (h : descend view path start names = .ok (chain, rest)) :
    start.ids ⊆ chain.ids := by
  induction names generalizing start with
  | nil =>
    rw [descend, Outcome.except_pure_eq_ok] at h
    cases h
    exact List.Subset.refl _
  | cons name names ih =>
    obtain ⟨inode, _, ⟨id, _, hrest⟩ | ⟨_, _, rfl, _⟩⟩ := descend_cons_eq_ok.1 h
    · exact List.Subset.trans (List.subset_append_left _ _) (ih hrest)
    · exact List.Subset.refl _

section Views

/-- An inode is shown by both views alike. -/
def Shows (other view : View) (id : InodeId) : Prop :=
  other.find id = view.find id

theorem Shows.get {id : InodeId} (shows' : Shows other view id) :
    other.get id = view.get id := by
  unfold View.get
  rw [show other.find id = view.find id from shows']

theorem descend_of_shows (h : descend view path start names = .ok (chain, rest))
    (same : ∀ id ∈ chain.ids, Shows other view id) :
    descend other path start names = .ok (chain, rest) := by
  induction names generalizing start with
  | nil => exact h
  | cons name names ih =>
    have hstart := same _ (ids_subset_of_descend h start.last_mem_ids)
    rw [descend_cons_eq_ok, hstart.get]
    obtain ⟨inode, hget, ⟨id, hchild, hrest⟩ | hstop⟩ := descend_cons_eq_ok.1 h
    · exact ⟨inode, hget, .inl ⟨id, hchild, ih hrest⟩⟩
    · exact ⟨inode, hget, .inr hstop⟩

/-- A view that shows all inodes on the way leads to the same place. -/
theorem Follows.of_shows (h : Follows view hops path links found)
    (same : ∀ id ∈ found.1.ids, Shows other view id)
    (onWay : ∀ link ∈ links, ∀ id ∈ link.ids, Shows other view id) :
    Follows other hops path links found := by
  induction h with
  | ends components descends stops =>
    refine .ends components (descend_of_shows descends same) fun hrest => ?_
    rw [(same _ (last_mem_ids _)).get]
    exact stops hrest
  | link components descends get content next ih =>
    have hlink := onWay _ List.mem_cons_self
    refine .link components (descend_of_shows descends hlink) ?_ content
      (ih same fun link hmem => onWay link (List.mem_cons_of_mem _ hmem))
    rw [(hlink _ (last_mem_ids _)).get]
    exact get

/-- A view that shows some inodes as another one does, and refuses all
others. -/
def Veils (other view : View) (refusal : InodeId → Error) : Prop :=
  ∀ id, Shows other view id ∨ other.find id = .error (refusal id)

/-- A reading of a veiled view answers as it would without the veil, or is
refused. -/
def Yields {α : Type} (refusal : InodeId → Error)
    (veiled plain : Except Error α) : Prop :=
  veiled = plain ∨ ∃ id, veiled = .error (refusal id)

variable {refusal : InodeId → Error}

theorem Yields.bind {α β : Type} {x y : Except Error α}
    {f g : α → Except Error β} (first : Yields refusal x y)
    (rest : ∀ a, Yields refusal (f a) (g a)) :
    Yields refusal (x >>= f) (y >>= g) := by
  rcases first with rfl | ⟨id, rfl⟩
  · cases x with
    | error error => exact .inl rfl
    | ok a => exact rest a
  · exact .inr ⟨id, rfl⟩

theorem Veils.get (veils : Veils other view refusal) (id : InodeId) :
    Yields refusal (other.get id) (view.get id) := by
  rcases veils id with same | hrefused
  · exact .inl same.get
  · right
    unfold View.get
    rw [hrefused]
    exact ⟨id, rfl⟩

/-- A walk in a veiled view goes as it would, or stops at the first inode that
is refused. -/
theorem Veils.descend (veils : Veils other view refusal) (path : String)
    (start : Chain) (names : List Name) :
    Yields refusal (Chain.descend other path start names)
      (Chain.descend view path start names) := by
  induction names generalizing start with
  | nil => exact .inl rfl
  | cons name names ih =>
    rw [Chain.descend, Chain.descend]
    refine (veils.get start.last).bind fun inode => ?_
    cases inode.content with
    | symlink => exact .inl rfl
    | file => exact .inl rfl
    | directory directory =>
      dsimp only
      cases directory.children[name]? with
      | none => exact .inl rfl
      | some id => exact ih (start.child name id)

theorem Veils.arrive (veils : Veils other view refusal)
    (next : ∀ target, Yields refusal (onward other path chain target hops)
      (onward view path chain target hops)) (rest : List Name) :
    Yields refusal (Chain.arrive other hops path chain rest)
      (Chain.arrive view hops path chain rest) := by
  cases rest with
  | cons name rest => exact .inl rfl
  | nil =>
    refine (veils.get chain.last).bind fun inode => ?_
    cases inode.content with
    | symlink target => exact next target
    | file => exact .inl rfl
    | directory => exact .inl rfl

theorem Veils.follow (veils : Veils other view refusal) (hops : Nat)
    (path : String) :
    Yields refusal (Chain.follow other hops path)
      (Chain.follow view hops path) := by
  induction hops generalizing path with
  | zero =>
    rw [follow_eq, follow_eq]
    refine Yields.bind (.inl rfl) fun names => ?_
    refine (veils.descend path .root names).bind fun found => ?_
    exact veils.arrive (fun target => .inl rfl) _
  | succ hops ih =>
    have honward (chain : Chain) (target : String) :
        Yields refusal (onward other path chain target (hops + 1))
          (onward view path chain target (hops + 1)) :=
      ih _
    rw [follow_eq, follow_eq]
    refine Yields.bind (.inl rfl) fun names => ?_
    refine (veils.descend path .root names).bind fun found => ?_
    exact veils.arrive (honward _) _

theorem Yields.eq_ok {α : Type} {x y : Except Error α} {a : α}
    (yields : Yields refusal x y) (h : x = .ok a) : y = .ok a := by
  rcases yields with rfl | ⟨id, rfl⟩
  · exact h
  · cases h

/-- What a veiled view leads to is led to without the veil. -/
theorem Follows.unveiled (veils : Veils other view refusal)
    (h : Follows other hops path links found) :
    Follows view hops path links found := by
  induction h with
  | ends components descends stops =>
    refine .ends components ((veils.descend _ _ _).eq_ok descends)
      fun hrest => ?_
    obtain ⟨inode, hget, hnot⟩ := stops hrest
    exact ⟨inode, (veils.get _).eq_ok hget, hnot⟩
  | link components descends get content _ ih =>
    exact .link components ((veils.descend _ _ _).eq_ok descends)
      ((veils.get _).eq_ok get) content ih

theorem resolveExisting_unveiled (veils : Veils other view refusal)
    {found : Chain × List Name}
    (h : resolveExisting other path false = .ok found) :
    resolveExisting view path false = .ok found := by
  obtain ⟨names, hnames, hdescend⟩ := resolveExisting_eq_ok.1 h
  exact resolveExisting_eq_ok.2
    ⟨names, hnames, (veils.descend _ _ _).eq_ok hdescend⟩

theorem resolve_unveiled (veils : Veils other view refusal)
    (h : resolve other path false = .ok chain) :
    resolve view path false = .ok chain :=
  resolve_of_ends (resolveExisting_unveiled veils (resolve_eq_ok.1 h))

/-- A path is refused when one of the symlinks on the way is. -/
theorem Veils.follow_refused (veils : Veils other view refusal)
    (h : Follows view hops path links found) (mem : link ∈ links)
    (refused : other.find link.last = .error (refusal link.last)) :
    ∃ id, Chain.follow other hops path = .error (refusal id) := by
  rcases veils.follow hops path with same | hrefused
  · rw [follow_eq_ok.2 ⟨links, h⟩] at same
    obtain ⟨others, h'⟩ := follow_eq_ok.1 same
    obtain ⟨rfl, _⟩ := h.unique (h'.unveiled veils)
    obtain ⟨_, _, inode, _, _, _, hget, _⟩ := h'.onward_of_mem mem
    unfold View.get at hget
    rw [refused] at hget
    cases hget
  · exact hrefused

end Views

end Chain

end QuotaTree
