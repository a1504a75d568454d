/-
Requests that leave the books alone, change them any number of times, or change
one file.  A request is judged by its parts: what it does before and after its
units of work leaves the books alone.
-/
import QuotaTree.Proofs.Work.Transact

namespace QuotaTree

namespace Namespace

structure Same (before after : Namespace) : Prop where
  config : after.config = before.config
  loaded : after.imageLoaded = before.imageLoaded
  table : after.table = before.table
  ledger : after.ledger = before.ledger
  locks : after.locks = before.locks

variable {ns ns' : Namespace} {α β : Type} {mends : Bool}

theorem resolvePath_eq_ok {path resolved : String} :
    resolvePath path ns = .ok resolved ns' ↔
      Path.resolveReserved ns.table.view path = .ok resolved ∧ ns' = ns := by
  unfold resolvePath
  cases Path.resolveReserved ns.table.view path with
  | ok found => simp [eq_comm]
  | error error => simp

/-- A request that succeeds has had its path resolved first. -/
theorem resolvePath_bind_eq_ok {path : String} {next : String → Request α}
    {a : α} :
    (resolvePath path >>= next) ns = .ok a ns' ↔
      ∃ resolved, Path.resolveReserved ns.table.view path = .ok resolved ∧
        next resolved ns = .ok a ns' := by
  rw [Outcome.bind_eq_ok]
  constructor
  · rintro ⟨resolved, mid, hresolved, hrest⟩
    obtain ⟨named, rfl⟩ := resolvePath_eq_ok.1 hresolved
    exact ⟨resolved, named, hrest⟩
  · rintro ⟨resolved, named, hrest⟩
    exact ⟨resolved, ns, resolvePath_eq_ok.2 ⟨named, rfl⟩, hrest⟩

theorem requireLegal_eq_ok {value : Int} {done : Unit} :
    requireLegal value ns = .ok done ns' ↔ Limit.isLegal value = true ∧
    ns' = ns := by
  unfold requireLegal
  cases Limit.isLegal value with
  | true => exact Outcome.pure_eq_ok.trans ⟨fun h => ⟨rfl, h.2.symm⟩,
    fun h => ⟨rfl, h.2.symm⟩⟩
  | false => simp

theorem Same.refl (ns : Namespace) : ns.Same ns :=
  ⟨rfl, rfl, rfl, rfl, rfl⟩

theorem Same.trans {first second third : Namespace} (early : first.Same second)
    (late : second.Same third) : first.Same third where
  config := late.config.trans early.config
  loaded := late.loaded.trans early.loaded
  table := late.table.trans early.table
  ledger := late.ledger.trans early.ledger
  locks := late.locks.trans early.locks

theorem Same.books (same : ns.Same ns') : ns'.books = ns.books := by
  rw [Namespace.books, Namespace.books, same.table, same.ledger]

theorem Same.keepsQuota (same : ns.Same ns') :
    ns'.keepsQuota = ns.keepsQuota := by
  rw [Namespace.keepsQuota, Namespace.keepsQuota, same.config, same.loaded]

theorem Same.drifts (same : ns.Same ns') (sound : ns.Sound) :
    ns.Drifts ns' where
  config := same.config
  loaded := same.loaded
  ledger := same.ledger ▸ sound.ledger
  locks := same.locks.trans sound.locks
  books := same.books ▸ .refl

theorem Same.sound (same : ns.Same ns') (sound : ns.Sound) : ns'.Sound :=
  (same.drifts sound).sound sound

/-- What is the same before leads to the same relation to what comes after. -/
theorem Same.trans_steps {first second third : Namespace}
    (early : first.Same second) (late : Steps mends second third) :
    Steps mends first third where
  config := late.config.trans early.config
  loaded := late.loaded.trans early.loaded
  ledger := late.ledger
  locks := late.locks
  books := early.books ▸ early.keepsQuota ▸ late.books

theorem Steps.trans_same {first second third : Namespace}
    (early : Steps mends first second) (late : second.Same third) :
    Steps mends first third where
  config := late.config.trans early.config
  loaded := late.loaded.trans early.loaded
  ledger := late.ledger ▸ early.ledger
  locks := late.locks.trans early.locks
  books := late.books ▸ early.books

def Quiet (request : Request α) : Prop :=
  ∀ ns : Namespace, ns.Same (Outcome.state (request ns))

/-- A request that changes the books any number of times. -/
def Drifting (request : Request α) : Prop :=
  ∀ ns : Namespace, ns.Sound → ns.Drifts (Outcome.state (request ns))

/-- A request that changes the books any number of times, or one file, or
perhaps brings up to date what quotas have cached. -/
def Stepping (mends : Bool) (request : Request α) : Prop :=
  ∀ ns : Namespace, ns.Sound → Steps mends ns (Outcome.state (request ns))

namespace Quiet

theorem pure (a : α) : Quiet (Pure.pure a : Request α) :=
  fun ns => .refl ns

theorem throw (error : Error) : Quiet (MonadExcept.throw error : Request α) :=
  fun ns => .refl ns

theorem get : Quiet (MonadState.get : Request Namespace) :=
  fun ns => .refl ns

theorem resolvePath (path : String) : Quiet (Namespace.resolvePath path) := by
  intro ns
  unfold Namespace.resolvePath
  cases Path.resolveReserved ns.table.view path <;> exact .refl ns

theorem releaseBlocks (blocks : List Block) :
    Quiet (Namespace.releaseBlocks blocks) :=
  fun _ => ⟨rfl, rfl, rfl, rfl, rfl⟩

theorem requireLegal (value : Int) : Quiet (Namespace.requireLegal value) := by
  intro ns
  unfold Namespace.requireLegal
  split <;> exact .refl ns

theorem bind {request : Request α} {next : α → Request β}
    (first : Quiet request) (rest : ∀ a, Quiet (next a)) :
    Quiet (request >>= next) := by
  intro ns
  have hfirst := first ns
  change ns.Same (Outcome.state (EStateM.bind request next ns))
  unfold EStateM.bind
  cases h : request ns with
  | ok a mid =>
    rw [h] at hfirst
    exact hfirst.trans (rest a mid)
  | error error mid =>
    rw [h] at hfirst
    exact hfirst

theorem drifting {request : Request α} (quiet : Quiet request) :
    Drifting request :=
  fun ns sound => (quiet ns).drifts sound

end Quiet

namespace Drifting

theorem stepping {request : Request α} (drifting : Drifting request) :
    Stepping mends request :=
  fun ns sound => (drifting ns sound).steps mends

theorem ite {p : Prop} [Decidable p] {left right : Request α}
    (hleft : Drifting left) (hright : Drifting right) :
    Drifting (if p then left else right) := by
  split
  · exact hleft
  · exact hright

/-- A request that is refused on a condition. -/
theorem guarded {p : Prop} [Decidable p] {error : Error}
    {rest : PUnit → Request α} (accepted : Drifting (rest ⟨⟩)) :
    Drifting (if p then MonadExcept.throw error >>= rest else rest ⟨⟩) :=
  .ite (Quiet.throw error).drifting accepted

theorem bind {request : Request α} {next : α → Request β}
    (first : Drifting request) (rest : ∀ a, Drifting (next a)) :
    Drifting (request >>= next) := by
  intro ns sound
  have hfirst := first ns sound
  change ns.Drifts (Outcome.state (EStateM.bind request next ns))
  unfold EStateM.bind
  cases h : request ns with
  | ok a mid =>
    rw [h] at hfirst
    exact hfirst.trans (rest a mid (hfirst.sound sound))
  | error error mid =>
    rw [h] at hfirst
    exact hfirst

theorem transact {operation : Operation} {demand : LockDemand} {work : Work α}
    (frames : work.Frames)
    (turns : ∀ {tx tx' value}, tx.Ready → work tx = .ok value tx' →
      tx.Turns tx') :
    Drifting (Namespace.transact operation demand work) :=
  fun _ sound => drifts_transact sound frames turns

end Drifting

namespace Stepping

theorem ite {p : Prop} [Decidable p] {left right : Request α}
    (hleft : Stepping mends left) (hright : Stepping mends right) :
    Stepping mends (if p then left else right) := by
  split
  · exact hleft
  · exact hright

theorem guarded {p : Prop} [Decidable p] {error : Error}
    {rest : PUnit → Request α} (accepted : Stepping mends (rest ⟨⟩)) :
    Stepping mends (if p then MonadExcept.throw error >>= rest else rest ⟨⟩) :=
  .ite (Quiet.throw error).drifting.stepping accepted

/-- What only looks at the namespace first does not count as a step. -/
theorem quiet_bind {request : Request α} {next : α → Request β}
    (first : Quiet request) (rest : ∀ a, Stepping mends (next a)) :
    Stepping mends (request >>= next) := by
  intro ns sound
  have hfirst := first ns
  change Steps mends ns (Outcome.state (EStateM.bind request next ns))
  unfold EStateM.bind
  cases h : request ns with
  | ok a mid =>
    rw [h] at hfirst
    exact hfirst.trans_steps (rest a mid (hfirst.sound sound))
  | error error mid =>
    rw [h] at hfirst
    exact (hfirst.drifts sound).steps mends

theorem bind_quiet {request : Request α} {next : α → Request β}
    (first : Stepping mends request) (rest : ∀ a, Quiet (next a)) :
    Stepping mends (request >>= next) := by
  intro ns sound
  have hfirst := first ns sound
  change Steps mends ns (Outcome.state (EStateM.bind request next ns))
  unfold EStateM.bind
  cases h : request ns with
  | ok a mid =>
    rw [h] at hfirst
    exact hfirst.trans_same (rest a mid)
  | error error mid =>
    rw [h] at hfirst
    exact hfirst

theorem transact {operation : Operation} {demand : LockDemand} {work : Work α}
    (frames : work.Frames)
    (effect : ∀ {tx tx' value}, tx.Ready → work tx = .ok value tx' →
      Effect tx.keepsQuota mends tx.books tx'.books) :
    Stepping mends (Namespace.transact operation demand work) :=
  fun _ sound => steps_transact sound frames effect

end Stepping

end Namespace

end QuotaTree
