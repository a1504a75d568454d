/-
When the growth of a file is refused.  A call that changes the data of a file
asks the quotas above it for exactly the growth of its usage, and with nothing
pending they have cached exactly what is used below them.
-/
import QuotaTree.Proofs.Limits.Growing
import QuotaTree.Proofs.Request.Following
import QuotaTree.Proofs.Refusal
import QuotaTree.Proofs.Overshoot

namespace QuotaTree

open Nodes Outcome Work

namespace Namespace

variable {ns ns' mid free : Namespace} {path : String} {chain : Chain}
  {file : File} {α β : Type}

/-- The same namespace where no quotas are kept. -/
def unkept (ns : Namespace) : Namespace :=
  { ns with config := { ns.config with quotaEnabled := false } }

def locate (ns : Namespace) (path : String) : Option (Chain × File) := do
  let path ← (Path.resolveReserved ns.table.view path).toOption
  let chain ← (Chain.resolve ns.table.view path false).toOption
  let file ← ns.table.tree.file chain.last
  pure (chain, file)

theorem locate_eq_some :
    ns.locate path = some (chain, file) ↔
      ∃ resolved, Path.resolveReserved ns.table.view path = .ok resolved ∧
        Chain.resolve ns.table.view resolved false = .ok chain ∧
        ns.table.tree.file chain.last = some file := by
  have htoOption {β : Type} (x : Except Error β) (b : β) :
      x.toOption = some b ↔ x = .ok b := by
    cases x <;> simp [Except.toOption]
  simp only [locate, Option.bind_eq_bind, Option.bind_eq_some_iff, htoOption,
    pure, Option.some_inj, Prod.mk.injEq]
  refine exists_congr fun resolved => ?_
  refine and_congr_right fun _ => ?_
  constructor
  · rintro ⟨_, hresolve, _, hfile, rfl, rfl⟩
    exact ⟨hresolve, hfile⟩
  · rintro ⟨hresolve, hfile⟩
    exact ⟨chain, hresolve, file, hfile, rfl, rfl⟩

/-- A request that turns the file at a path into another one where no quotas are
kept, and is decided by those above the file where they are. -/
def Asking (path : String) (request : Request α) : Prop :=
  ∀ (ns free : Namespace) (a : α) (chain : Chain) (file : File), ns.Sound →
    ns.keepsQuota = true → ns.locate path = some (chain, file) →
    request ns.unkept = .ok a free →
      ∃ new delta, file.Recharged new delta ∧
        free.table.tree.file chain.last = some new ∧
        Decided (request ns) (Chain.refusal ns.table.tree delta chain.above)

/-- A request that only gives out numbers, the same whether quotas are kept or
not. -/
def Steady (request : Request α) : Prop :=
  ∀ ns : Namespace, ∃ a mid, request ns = .ok a mid ∧
    request ns.unkept = .ok a mid.unkept ∧
    ns.Same mid

theorem Same.locate (same : ns.Same mid) (path : String) :
    mid.locate path = ns.locate path := by
  rw [Namespace.locate, Namespace.locate, same.table]

theorem decided_transact {operation : Operation} {demand : LockDemand}
    {work : Work α} {locks : LockSet} {refusal : Option QuotaExceeded}
    (free : ns.locks = ∅) (frames : work.Frames)
    (plan : demand.plan ns.table.view = .ok locks)
    (decided : Decided (work (ns.opened operation locks)) refusal) :
    Decided (transact operation demand work ns) refusal := by
  rw [transact_of_plan free plan (keyed_of_ok frames)]
  cases refusal with
  | some exceeded =>
    obtain ⟨tx, herror⟩ := decided
    exact ⟨tx.rollback, by simp only [herror]⟩
  | none =>
    obtain ⟨a, tx, hok⟩ := decided
    exact ⟨a, tx.commit, by simp only [hok]⟩

namespace Asking

theorem transact {operation : Operation} {work : String → Work α}
    (frames : ∀ path, (work path).Frames)
    (asks : ∀ path, Asks (work path) path) :
    Asking path (resolvePath path >>= fun path =>
      Namespace.transact operation (.ofPath { path, kind := .write })
        (work path)) := by
  intro ns free a chain file sound keeps located h
  obtain ⟨resolved, hreserved, hresolve, hfile⟩ := locate_eq_some.1 located
  have hpath : resolvePath path ns.unkept = .ok resolved ns.unkept :=
    resolvePath_eq_ok.2 ⟨hreserved, rfl⟩
  have sound' : ns.unkept.Sound := ⟨sound.books, sound.ledger, sound.locks⟩
  rw [bind_of_ok hpath] at h
  obtain ⟨locks, tx', hplan, hwork, rfl⟩ := exists_of_transact sound'.locks h
  have ready := @ready_opened ns operation locks sound.books
  have htree := @tree_opened ns operation locks
  obtain ⟨found, hfound, regrows⟩ := asks resolved ready keeps hwork
  -- under the locks the path leads where it leads without them
  obtain rfl : found = chain := by
    have hopened := Chain.resolve_unveiled veils_opened hfound
    exact Except.ok.inj (hopened.symm.trans hresolve)
  obtain ⟨new, delta, regrows⟩ := regrows (htree ▸ hfile)
  have ext := frames resolved (ns.unkept.opened operation locks)
  rw [hwork] at ext
  refine ⟨new, delta, regrows.recharged, ?_,
    .after_ok (resolvePath_eq_ok.2 ⟨hreserved, rfl⟩) ?_⟩
  · rw [show tx'.commit.table.tree = tx'.tree from
      congrArg Books.nodes (books_commit sound' ext)]
    exact regrows.after
  · exact decided_transact sound.locks (frames resolved) hplan
      (htree ▸ regrows.decided)

/-- What only gives out numbers may come first. -/
theorem steady_bind {request : Request α} {next : α → Request β}
    (first : Steady request) (rest : ∀ a, Asking path (next a)) :
    Asking path (request >>= next) := by
  intro ns free b chain file sound keeps located h
  obtain ⟨a, mid, hkept, hunkept, same⟩ := first ns
  rw [bind_of_ok hunkept] at h
  rw [← same.locate path] at located
  obtain ⟨new, delta, recharged, hnew, decided⟩ := rest a mid free b chain file
    (same.sound sound) (same.keepsQuota.trans keeps) located h
  exact ⟨new, delta, recharged, hnew, .after_ok hkept (same.table ▸ decided)⟩

/-- What looks at the settings that do not concern quotas may come first. -/
theorem get_bind {next : Namespace → Request α}
    (rest : ∀ ns, Asking path (next ns))
    (same : ∀ ns : Namespace, next ns.unkept = next ns) :
    Asking path (MonadState.get >>= next) := by
  intro ns free a chain file sound keeps located h
  rw [Outcome.get_bind, same] at h
  exact rest ns ns free a chain file sound keeps located h

/-- What cannot fail and leaves the tree alone may come last. -/
theorem bind_sure {request : Request α} {next : α → Request β}
    (first : Asking path request) (sure : ∀ a, Sure (next a))
    (quiet : ∀ a, Quiet (next a)) : Asking path (request >>= next) := by
  intro ns free b chain file sound keeps located h
  obtain ⟨a, mid, hrequest, hrest⟩ := Outcome.bind_eq_ok.1 h
  obtain ⟨new, delta, recharged, hnew, decided⟩ :=
    first ns mid a chain file sound keeps located hrequest
  have same : mid.Same free := by
    have hsame := quiet a mid
    rwa [hrest] at hsame
  exact ⟨new, delta, recharged, same.table ▸ hnew, decided.then_sure sure⟩

theorem guarded {p : Prop} [Decidable p] {error : Error}
    {rest : PUnit → Request α} (accepted : Asking path (rest ⟨⟩)) :
    Asking path (if p then MonadExcept.throw error >>= rest else rest ⟨⟩) := by
  split
  · intro ns free a chain file _ _ _ h
    cases h
  · exact accepted

theorem discarded {request : Request α} (asking : Asking path request) :
    Asking path (discard request) := by
  intro ns free a chain file sound keeps located h
  obtain ⟨answer, h⟩ := Outcome.discard_eq_ok.1 h
  obtain ⟨new, delta, recharged, hnew, decided⟩ :=
    asking ns free answer chain file sound keeps located h
  exact ⟨new, delta, recharged, hnew, decided.discarded⟩

end Asking

theorem asking_onFile {operation : Operation} {body : Chain → Work α}
    (frames : ∀ chain, (body chain).Frames)
    (regrows : ∀ {tx tx' : Transaction} {chain : Chain} {a : α}, tx.Ready →
      tx.keepsQuota = true → Chain.Leads tx.tree chain →
      (∀ above ∈ chain.above, above.Readable tx.view) →
      body chain tx.unkept = .ok a tx' →
        ∃ file new delta, tx.tree.file chain.last = some file ∧
          Regrows (body chain) tx tx' chain file new delta) :
    Asking path (onFile operation path body) :=
  .transact (fun _ => .bind (.read _) frames) fun _ => asks_resolved regrows

theorem asking_addBlock (path client : String) (targets : List String) :
    Asking path (addBlock path client targets) := by
  have steady : Steady nextBlockOut :=
    fun ns => ⟨_, _, rfl, rfl, ⟨rfl, rfl, rfl, rfl, rfl⟩⟩
  refine .steady_bind steady fun block => ?_
  refine .bind_sure ?_ (fun _ => .pure block) fun _ => .pure block
  have raised : Steady (modify fun ns =>
      { ns with
        nextBlock := max ns.nextBlock (block.id + 1)
        nextStamp := max ns.nextStamp (block.stamp + 1) }) :=
    fun ns => ⟨_, _, rfl, rfl, ⟨rfl, rfl, rfl, rfl, rfl⟩⟩
  refine .steady_bind raised fun _ => ?_
  refine .bind_sure (asking_onFile (.addBlockAt _ _ _) regrows_addBlockAt)
    (fun _ => .trackBlock _ _ _) fun _ => ?_
  exact quiet_trackBlock _ _ _

theorem asking_writeInline (path client : String) (length : Nat) :
    Asking path (writeInline path client length) := by
  refine .get_bind (fun ns => ?_) fun ns => rfl
  extract_lets limit rest
  exact .guarded (asking_onFile (.writeInlineAt _ _) regrows_writeInlineAt)

theorem asking_setReplication (path : String) (replication : Nat) :
    Asking path (setReplication path replication) := by
  unfold setReplication
  extract_lets rest
  exact .guarded (.transact (fun path => .setReplication path replication)
    fun path => asks_setReplication path replication)

end Namespace

/-- The path of the file that a call may make greater. -/
def Call.growing? : Call → Option String
  | .addBlock path _ _ | .append path _ | .writeInline path _ _
  | .setStoragePolicy path _
  | .setReplication path _ => some path
  | _ => none

namespace Namespace

variable {ns ns' free : Namespace} {path : String} {chain : Chain} {file : File}
  {call : Call}

theorem asking_call (growing : call.growing? = some path) :
    Asking path call.run := by
  cases call with
  | addBlock _ client targets =>
    cases growing
    exact (asking_addBlock path client targets).discarded
  | append _ writer =>
    cases growing
    exact asking_onFile (.appendAt _) regrows_appendAt
  | writeInline _ client length =>
    cases growing
    exact asking_writeInline path client length
  | setStoragePolicy _ policy =>
    cases growing
    exact .transact (fun path => .setPolicy path policy)
      fun path => asks_setPolicy path policy
  | setReplication _ replication =>
    cases growing
    exact asking_setReplication path replication
  | _ => cases growing

/-- By how much the usage of an inode is greater in another namespace. -/
def growth (before after : Namespace) (id : InodeId) : Counts :=
  after.table.tree.own id - before.table.tree.own id

/-- A directory has a limit in a dimension that grows, and what is used below it
would pass that limit with the growth. -/
def Lacks (ns : Namespace) (growth : Counts) (above : Chain) : Prop :=
  ∃ inode quota used dimension, ns.table.find? above.last = some inode ∧
    inode.quota = some quota ∧ ns.table.view.usage above.last = .ok used ∧
    0 ≤ quota.limits.get dimension ∧ 0 < growth.get dimension ∧
    quota.limits.get dimension < used.get dimension + growth.get dimension

/-- What is used below an inode stays in the range of a counter with a
growth. -/
def InRange (ns : Namespace) (growth : Counts) (above : Chain) : Prop :=
  ∀ used dimension, ns.table.view.usage above.last = .ok used →
    used.get dimension + growth.get dimension ≤ maxCounter

instance {growth : Counts} {above : Chain} :
    Decidable (ns.InRange growth above) :=
  decidable_of_iff
    ((ns.table.view.usage above.last).toOption.all fun used =>
      Dimension.all.all fun dimension =>
        decide (used.get dimension + growth.get dimension ≤ maxCounter)) <| by
    unfold InRange
    cases ns.table.view.usage above.last with
    | error error => simp [Except.toOption]
    | ok used =>
      simp only [Except.toOption, Option.all_some, List.all_eq_true,
        Dimension.mem_all, decide_eq_true_eq, forall_const, Except.ok.injEq]
      exact ⟨fun h _ dimension hused => hused ▸ h dimension,
        fun h dimension => h used dimension rfl⟩

instance {growth : Counts} {above : Chain} :
    Decidable (ns.Lacks growth above) :=
  decidable_of_iff
    (((ns.table.find? above.last).bind Inode.quota).any fun quota =>
      (ns.table.view.usage above.last).toOption.any fun used =>
        Dimension.all.any fun dimension =>
          decide (0 ≤ quota.limits.get dimension ∧ 0 < growth.get dimension ∧
            quota.limits.get dimension < used.get dimension +
              growth.get dimension)) <| by
    unfold Lacks
    cases ns.table.view.usage above.last with
    | error error => simp [Except.toOption]
    | ok used =>
      simp only [Except.toOption, Option.any_some, Option.any_eq_true,
        Option.bind_eq_some_iff, List.any_eq_true, Dimension.mem_all, true_and,
        decide_eq_true_eq, Except.ok.injEq]
      constructor
      · rintro ⟨quota, ⟨inode, live, hquota⟩, dimension, hpassed⟩
        exact ⟨inode, quota, used, dimension, live, hquota, rfl, hpassed⟩
      · rintro ⟨inode, quota, _, dimension, live, hquota, rfl, hpassed⟩
        exact ⟨quota, ⟨inode, live, hquota⟩, dimension, hpassed⟩

/-- With nothing pending, a quota refuses a growth exactly if its directory
lacks the room. -/
theorem Keeping.exceeded_iff {config : Config} (keeping : Keeping config ns)
    (settled : ns.books.Settled) {growth : Counts} {above : Chain}
    (range : ns.InRange growth above) :
    (∃ exceeded, (ns.table.tree.quota above.last).bind
      (·.firstExceeded growth) = some exceeded) ↔
      ns.Lacks growth above := by
  constructor
  · rintro ⟨exceeded, h⟩
    obtain ⟨quota, hquota, hexceeded⟩ := Option.bind_eq_some_iff.1 h
    obtain ⟨inode, live, hinode⟩ := quota_eq_some.1 hquota
    have husage := keeping.usage_of_settled settled live hinode
    obtain ⟨dimension, hpassed⟩ :
        ∃ dimension, quota.exceededIn growth dimension = true := by
      by_contra hnone
      push Not at hnone
      rw [(quota.firstExceeded_eq_none_iff growth).2 fun dimension =>
        Bool.not_eq_true _ ▸ hnone dimension] at hexceeded
      cases hexceeded
    exact ⟨inode, quota, quota.cached, dimension, live, hinode, husage,
      (Limit.exceededBy_iff_of_range (range _ dimension husage)).1 hpassed⟩
  · rintro ⟨inode, quota, used, dimension, live, hinode, hused, hpassed⟩
    have husage := keeping.usage_of_settled settled live hinode
    obtain rfl := Except.ok.inj (husage.symm.trans hused)
    rw [quota_of_live live, hinode, Option.bind_some,
      ← Option.isSome_iff_exists, Option.isSome_iff_ne_none]
    intro hnone
    have hroom := (quota.firstExceeded_eq_none_iff growth).1 hnone dimension
    rw [Quota.exceededIn,
      (Limit.exceededBy_iff_of_range (range _ dimension hused)).2 hpassed]
      at hroom
    cases hroom

theorem refusal_eq_some_iff {growth : Counts} {chains : List Chain}
    {exceeded : QuotaExceeded} {nodes : Nodes} :
    Chain.refusal nodes growth chains = some exceeded ↔
      ∃ lower above higher first, chains = lower ++ above :: higher ∧
        (nodes.quota above.last).bind (·.firstExceeded growth) = some first ∧
        first.locatedAt above.path = exceeded ∧
        ∀ other ∈ lower,
          (nodes.quota other.last).bind (·.firstExceeded growth) = none := by
  simp only [Chain.refusal, List.findSome?_eq_some_iff, Option.map_eq_some_iff,
    Option.map_eq_none_iff]
  constructor
  · rintro ⟨lower, above, higher, hsplit, ⟨first, hfirst, rfl⟩, hlower⟩
    exact ⟨lower, above, higher, first, hsplit, hfirst, rfl, hlower⟩
  · rintro ⟨lower, above, higher, first, hsplit, hfirst, rfl, hlower⟩
    exact ⟨lower, above, higher, hsplit, ⟨first, hfirst, rfl⟩, hlower⟩

/-- With nothing pending, the quotas of some directories refuse a growth exactly
if one of these lacks the room. -/
theorem Keeping.exists_refusal_iff {config : Config}
    (keeping : Keeping config ns) (settled : ns.books.Settled) {growth : Counts}
    {chains : List Chain} (range : ∀ above ∈ chains, ns.InRange growth above) :
    (∃ exceeded, Chain.refusal ns.table.tree growth chains = some exceeded) ↔
      ∃ above ∈ chains, ns.Lacks growth above := by
  constructor
  · rintro ⟨exceeded, hrefusal⟩
    obtain ⟨lower, above, higher, first, rfl, hfirst, _⟩ :=
      refusal_eq_some_iff.1 hrefusal
    have hmem : above ∈ lower ++ above :: higher :=
      List.mem_append_right _ List.mem_cons_self
    exact ⟨above, hmem,
      (keeping.exceeded_iff settled (range above hmem)).1 ⟨first, hfirst⟩⟩
  · rintro ⟨above, habove, lacks⟩
    obtain ⟨first, hfirst⟩ :=
      (keeping.exceeded_iff settled (range above habove)).2 lacks
    rw [← Option.isSome_iff_exists, Option.isSome_iff_ne_none]
    intro hnone
    have hpassed := List.findSome?_eq_none_iff.1 hnone above habove
    rw [hfirst] at hpassed
    cases hpassed

/-- The refusal is that of the first directory that lacks the room. -/
theorem Keeping.first_of_refusal {config : Config} (keeping : Keeping config ns)
    (settled : ns.books.Settled) {growth : Counts} {chains : List Chain}
    {exceeded : QuotaExceeded}
    (range : ∀ above ∈ chains, ns.InRange growth above)
    (h : Chain.refusal ns.table.tree growth chains = some exceeded) :
    ∃ lower above higher, chains = lower ++ above :: higher ∧
      ns.Lacks growth above ∧
      (∀ other ∈ lower, ¬ ns.Lacks growth other) ∧
      exceeded.path = some above.path := by
  obtain ⟨lower, above, higher, first, rfl, hfirst, rfl, hlower⟩ :=
    refusal_eq_some_iff.1 h
  have hrange := range above (List.mem_append_right _ List.mem_cons_self)
  refine ⟨lower, above, higher, rfl,
    (keeping.exceeded_iff settled hrange).1 ⟨first, hfirst⟩,
    fun other hother lacks => ?_, rfl⟩
  have hrange := range other (List.mem_append_left _ hother)
  obtain ⟨exceeded, hexceeded⟩ := (keeping.exceeded_iff settled hrange).2 lacks
  rw [hlower other hother] at hexceeded
  cases hexceeded

/-- A request is refused exactly if a directory above the end of a chain lacks
the room for a growth.  The error names the deepest of these directories. -/
structure Enforces {α : Type} (ns : Namespace) (request : Request α)
    (growth : Counts) (chain : Chain) : Prop where
  refused_iff :
    (∃ exceeded ns', request ns = .error (.quotaExceeded exceeded) ns') ↔
    ∃ above ∈ chain.above, ns.Lacks growth above
  deepest :
    ∀ {exceeded ns'}, request ns = .error (.quotaExceeded exceeded) ns' →
    ∃ lower above higher, chain.above = lower ++ above :: higher ∧
      ns.Lacks growth above ∧
      (∀ other ∈ lower, ¬ ns.Lacks growth other) ∧
      exceeded.path = some above.path
  granted : (∀ above ∈ chain.above, ¬ ns.Lacks growth above) →
    ∃ a ns', request ns = .ok a ns'

/-- A request that the cached usages decide is decided by the true ones when
nothing is pending. -/
theorem Keeping.enforces {config : Config} {request : Request Unit}
    (keeping : Keeping config ns) (settled : ns.books.Settled) {growth : Counts}
    (range : ∀ above ∈ chain.above, ns.InRange growth above)
    (decided : Decided (request ns)
      (Chain.refusal ns.table.tree growth chain.above)) :
    ns.Enforces request growth chain := by
  have hexists := keeping.exists_refusal_iff settled range
  cases hrefusal : Chain.refusal ns.table.tree growth chain.above with
  | none =>
    rw [hrefusal] at decided hexists
    obtain ⟨a, ns', hok⟩ := decided
    refine ⟨⟨?_, fun lacks => ?_⟩, ?_, fun _ => ⟨a, ns', hok⟩⟩
    · rintro ⟨exceeded, _, herror⟩
      rw [hok] at herror
      cases herror
    · obtain ⟨_, hnone⟩ := hexists.2 lacks
      cases hnone
    · intro exceeded _ herror
      rw [hok] at herror
      cases herror
  | some exceeded =>
    have lacks := hexists.1 ⟨exceeded, hrefusal⟩
    rw [hrefusal] at decided
    obtain ⟨ns', herror⟩ := decided
    refine ⟨⟨fun _ => lacks, fun _ => ⟨_, ns', herror⟩⟩, ?_, fun hroom => ?_⟩
    · intro exceeded _ herror'
      rw [herror] at herror'
      cases herror'
      exact keeping.first_of_refusal settled range hrefusal
    · obtain ⟨above, habove, hlacks⟩ := lacks
      exact absurd hlacks (hroom above habove)

theorem growth_of_recharged {new : File} {delta : Counts}
    (shaped : ns.books.Shaped) (fits : ns.Fits) (fits' : free.Fits)
    (hfile : ns.table.tree.file chain.last = some file)
    (recharged : file.Recharged new delta)
    (hnew : free.table.tree.file chain.last = some new) :
    ns.growth free chain.last = delta := by
  have hown (nodes : Nodes) (file : File)
      (h : nodes.file chain.last = some file) :
      nodes.own chain.last = file.usage := by
    obtain ⟨inode, live, hfile⟩ := Option.bind_eq_some_iff.1 h
    rw [own_of_live live, Inode.ownUsage_eq, hfile]
    rfl
  rw [growth, hown _ _ hnew, hown _ _ hfile,
    recharged.usage (shaped hfile) (fits.books hfile) (fits'.books hnew)]
  abel

/-- In every run that keeps quotas, with nothing pending, a call that turns a
file into another one where no quotas are kept is refused exactly if a directory
above has no room for the growth of the file's usage. -/
theorem enforces_growing (config : Config)
    (enabled : config.quotaEnabled = true) (calls : List Call) (call : Call)
    (growing : call.growing? = some path)
    (fits : ∀ made, made <+: calls →
      ((fresh config).after (made.map Call.run)).Fits)
    (settled : ((fresh config).after (calls.map Call.run)).ledger.size = 0)
    (located : ((fresh config).after (calls.map Call.run)).locate path =
      some (chain, file))
    (passes : call.run ((fresh config).after (calls.map Call.run)).unkept =
      .ok () free)
    (fits' : free.Fits)
    (range : ∀ above ∈ chain.above,
      ((fresh config).after (calls.map Call.run)).InRange (((fresh config).after
        (calls.map Call.run)).growth free chain.last) above) :
    ((fresh config).after (calls.map Call.run)).Enforces call.run
      (((fresh config).after (calls.map Call.run)).growth free chain.last)
      chain := by
  have keeping := keeping_after enabled calls fits
  have hfits := fits calls (List.prefix_refl _)
  obtain ⟨new, delta, recharged, hnew, decided⟩ := asking_call growing _ free
    () chain file keeping.sound (keeping.keepsQuota enabled) located passes
  obtain ⟨_, _, _, hfile⟩ := locate_eq_some.1 located
  have hgrowth :=
    growth_of_recharged keeping.shaped hfits fits' hfile recharged hnew
  rw [← hgrowth] at decided
  exact keeping.enforces (settled_of_size settled) range decided

/-- A file in a directory that has no room for another block, below one that has
none either. -/
def filledRun : List Call :=
  [.mkdirs "/q/d" {}, .setQuota "/q" (-1) 300, .setQuota "/q/d" (-1) 250,
    .create "/q/d/f"
      { writer := ⟨"c", ""⟩, blockSize := some 100, replication := some 2 },
    .addBlock "/q/d/f" "c" [], .mergeUpdates]

def filledChain : Chain :=
  .child (.child (.child .root (Name.ofText "q") ⟨2⟩) (Name.ofText "d") ⟨3⟩)
    (Name.ofText "f") ⟨4⟩

theorem enforces_filledRun :
    ∃ free, (Call.addBlock "/q/d/f" "c" []).run
        ((fresh {}).after (filledRun.map Call.run)).unkept = .ok () free ∧
      ((fresh {}).after (filledRun.map Call.run)).Enforces (Call.addBlock
        "/q/d/f" "c" []).run (((fresh {}).after (filledRun.map Call.run)).growth
          free filledChain.last) filledChain := by
  have fits : ∀ made ∈ filledRun.inits,
      ((fresh {}).after (made.map Call.run)).Fits := by
    decide +kernel
  have located :
      (((fresh {}).after (filledRun.map Call.run)).locate "/q/d/f").map
        Prod.fst = some filledChain := by
    decide +kernel
  have hdone : Outcome.error? ((Call.addBlock "/q/d/f" "c" []).run
      ((fresh {}).after (filledRun.map Call.run)).unkept) = none := by
    decide +kernel
  have hafter :
      (Outcome.state ((Call.addBlock "/q/d/f" "c" []).run
        ((fresh {}).after (filledRun.map Call.run)).unkept)).Fits ∧
      ∀ above ∈ filledChain.above,
        ((fresh {}).after (filledRun.map Call.run)).InRange
          (((fresh {}).after (filledRun.map Call.run)).growth (Outcome.state
            ((Call.addBlock "/q/d/f" "c" []).run ((fresh {}).after
              (filledRun.map Call.run)).unkept)) filledChain.last) above := by
    decide +kernel
  obtain ⟨_, free, passes⟩ := Outcome.error?_eq_none.1 hdone
  obtain ⟨⟨_, file⟩, located, rfl⟩ := Option.map_eq_some_iff.1 located
  rw [passes] at hafter
  exact ⟨free, passes, enforces_growing {} rfl filledRun _ rfl
    (fun made hmade => fits made ((List.mem_inits _ _).2 hmade))
      (by decide +kernel) located passes hafter.1 hafter.2⟩

end Namespace

end QuotaTree
