/-
When updates are merged makes no difference in the end.  Two runs of the same
operations, with merges and queries between them at different places, answer the
same as long as nothing is refused, and after a last merge they have led to the
same tree, usage included.
-/
import QuotaTree.Proofs.Twins.Merging

namespace QuotaTree

inductive Answer where
  | done
  | made (id : InodeId)
  | given (block : Block)
  | whether (flag : Bool)
  | merged (count : Nat)
  | report (report : RecountReport)
  deriving DecidableEq

/-- A call with its answer; the many kinds of answers to queries are left
out. -/
def Call.ask : Call → Request Answer
  | .mkdirs path permission =>
    (fun _ => .done) <$> Namespace.mkdirs path permission
  | .create path options => .made <$> Namespace.create path options
  | .createSymlink target link permission createParent =>
    .made <$> Namespace.createSymlink target link permission createParent
  | .addBlock path client targets =>
    .given <$> Namespace.addBlock path client targets
  | .abandonBlock path client block =>
    .whether <$> Namespace.abandonBlock path client block
  | .complete path client lastLength =>
    (fun _ => .done) <$> Namespace.complete path client lastLength
  | .append path writer => (fun _ => .done) <$> Namespace.append path writer
  | .writeInline path client length =>
    (fun _ => .done) <$> Namespace.writeInline path client length
  | .truncate path length => (fun _ => .done) <$> Namespace.truncate path length
  | .delete path recursive => .whether <$> Namespace.delete path recursive
  | .rename source destination =>
    (fun _ => .done) <$> Namespace.rename source destination
  | .setQuota path inodes bytes =>
    (fun _ => .done) <$> Namespace.setQuota path inodes bytes
  | .setTypeQuota path type limit =>
    (fun _ => .done) <$> Namespace.setTypeQuota path type limit
  | .setStoragePolicy path policy =>
    (fun _ => .done) <$> Namespace.setStoragePolicy path policy
  | .setReplication path replication =>
    (fun _ => .done) <$> Namespace.setReplication path replication
  | .mergeUpdates => .merged <$> Namespace.mergeUpdates
  | .recount => .report <$> Namespace.recount
  | .query asked => (fun _ => .done) <$> asked.run

/-- The calls that are made for what they do: all but merges and queries. -/
def Call.isOperation : Call → Bool
  | .mergeUpdates | .query _ => false
  | _ => true

namespace Namespace

variable {ns twin ns' twin' : Namespace} {config : Config} {call : Call}
  {calls : List Call}

theorem state_map {α β : Type} (f : α → β) (request : Request α)
    (ns : Namespace) :
    Outcome.state ((f <$> request) ns) = Outcome.state (request ns) := by
  change Outcome.state (EStateM.map f request ns) = _
  unfold EStateM.map
  cases request ns <;> rfl

/-- A call does the same whether its answer is kept or not. -/
theorem state_ask (call : Call) (ns : Namespace) :
    Outcome.state (call.ask ns) = Outcome.state (call.run ns) := by
  cases call <;> simp only [Call.ask, Call.run, state_map, state_discard]

def answers (ns : Namespace) : List Call → List (Except Error Answer)
  | [] => []
  | call :: rest =>
    let others := (Outcome.state (call.run ns)).answers rest
    if call.isOperation then Outcome.answer (call.ask ns) :: others else others

/-- What comes before the first operation is not heard of. -/
theorem answers_idle_append (ns : Namespace)
    (idle : ∀ call ∈ calls, call.isOperation = false) (rest : List Call) :
    ns.answers (calls ++ rest) =
      (ns.after (calls.map Call.run)).answers rest := by
  induction calls generalizing ns with
  | nil => rfl
  | cons call others ih =>
    have hcall := idle call List.mem_cons_self
    have hothers := ih (Outcome.state (call.run ns)) fun other hother =>
      idle other (List.mem_cons_of_mem _ hother)
    simp only [List.cons_append, answers, hcall, Bool.false_eq_true, if_false]
    exact hothers

theorem answers_operation (ns : Namespace) (operation : call.isOperation = true)
    (rest : List Call) :
    ns.answers (call :: rest) = Outcome.answer (call.ask ns) ::
      (Outcome.state (call.run ns)).answers rest := by
  simp only [answers, operation, if_true]

/-- Merges and queries leave a twin. -/
theorem twins_of_idle (sound : ns.Sound) (idle : call.isOperation = false) :
    (Outcome.state (call.run ns)).Twins ns := by
  cases call with
  | mergeUpdates =>
    obtain ⟨count, ns', h, merged⟩ := exists_mergeUpdates sound
    change (Outcome.state (discard mergeUpdates ns)).Twins ns
    rw [state_discard, h]
    exact merged.twins
  | query query =>
    obtain ⟨pauses, hstate⟩ := watching_query query ns sound.locks
    change (Outcome.state (query.run ns)).Twins ns
    rw [hstate]
    exact twins_of_ledger ns _ _
  | _ => cases idle

theorem twins_after_idle (sound : ns.Sound)
    (idle : ∀ call ∈ calls, call.isOperation = false) :
    (ns.after (calls.map Call.run)).Twins ns := by
  induction calls generalizing ns with
  | nil => exact .refl ns
  | cons call rest ih =>
    have hcall := twins_of_idle sound (idle call List.mem_cons_self)
    have hrest := ih ((stepping_call call).sustaining ns sound)
      fun other hother => idle other (List.mem_cons_of_mem _ hother)
    exact hrest.trans hcall

/-- A recount reports no inconsistencies where quotas are kept. -/
theorem Keeping.consistent (enabled : config.quotaEnabled = true)
    (keeping : Keeping config ns) {report : RecountReport}
    (h : Namespace.recount ns = .ok report ns') :
    report.inconsistencies = 0 := by
  obtain ⟨_, _, hrecount, hconsistent⟩ := keeping.recount enabled
  cases h.symm.trans hrecount
  exact hconsistent

theorem Keeping.ask {answer : Answer} (enabled : config.quotaEnabled = true)
    (keeping : Keeping config ns) (fits : ns.Fits)
    (h : call.ask ns = .ok answer ns') (fits' : ns'.Fits) :
    Keeping config ns' := by
  have hstate : Outcome.state (call.run ns) = ns' := by
    rw [← state_ask, h]
    rfl
  have hkeeping := keeping.call enabled call fits
  rw [hstate] at hkeeping
  exact hkeeping fits'

/-- An operation that succeeds for both of two twins answers them the same and
leaves them twins. -/
theorem Twins.ask {a b : Answer} (enabled : config.quotaEnabled = true)
    (operation : call.isOperation = true) (twins : ns.Twins twin)
    (keeping : Keeping config ns) (keeping' : Keeping config twin)
    (h : call.ask ns = .ok a ns') (h' : call.ask twin = .ok b twin') :
    a = b ∧ ns'.Twins twin' := by
  have concurs {α : Type} {f : α → Answer} {request : Request α}
      (concurs : Concurs Eq request request)
      (h : (f <$> request) ns = .ok a ns')
      (h' : (f <$> request) twin = .ok b twin') : a = b ∧ ns'.Twins twin' :=
    concurs.map f ns twin twins keeping.sound keeping'.sound a ns' b twin' h h'
  cases call with
  | mkdirs path permission => exact concurs (concurs_mkdirs _ _) h h'
  | create path options => exact concurs (concurs_create _ _) h h'
  | createSymlink target link permission createParent =>
    exact concurs (concurs_createSymlink _ _ _ _) h h'
  | addBlock path client targets => exact concurs (concurs_addBlock _ _ _) h h'
  | abandonBlock path client block =>
    exact concurs (concurs_abandonBlock _ _ _) h h'
  | complete path client lastLength =>
    exact concurs (concurs_complete _ _ _) h h'
  | append path writer => exact concurs (concurs_append _ _) h h'
  | writeInline path client length =>
    exact concurs (concurs_writeInline _ _ _) h h'
  | truncate path length => exact concurs (concurs_truncate _ _) h h'
  | delete path recursive => exact concurs (concurs_delete _ _) h h'
  | rename source destination => exact concurs (concurs_rename _ _) h h'
  | setQuota path inodes bytes => exact concurs (concurs_setQuota _ _ _) h h'
  | setTypeQuota path type limit =>
    exact concurs (concurs_setTypeQuota _ _ _) h h'
  | setStoragePolicy path policy =>
    exact concurs (concurs_setStoragePolicy _ _) h h'
  | setReplication path replication =>
    exact concurs (concurs_setReplication _ _) h h'
  | recount =>
    obtain ⟨report, hreport, rfl⟩ := Outcome.map_eq_ok.1 h
    obtain ⟨report', hreport', rfl⟩ := Outcome.map_eq_ok.1 h'
    obtain ⟨agrees, twins'⟩ := concurs_recount ns twin twins keeping.sound
      keeping'.sound report ns' report' twin' hreport hreport'
    have hconsistent := keeping.consistent enabled hreport
    have hconsistent' := keeping'.consistent enabled hreport'
    exact ⟨congrArg Answer.report
      (agrees.eq (hconsistent.trans hconsistent'.symm)), twins'⟩
  | mergeUpdates => cases operation
  | query query => cases operation

/-- Twins have the same files. -/
theorem Twins.fits (twins : ns.Twins twin) (fits : ns.Fits) : twin.Fits := by
  intro id inode file live hfile
  obtain ⟨inode', live', inodes⟩ :=
    exists_right_of_rel (twins.symm.nodes.at_pair rfl) live
  exact fits id inode' file live' (inodes.asFile.symm.trans hfile)

theorem Keeping.after_idle (enabled : config.quotaEnabled = true)
    (keeping : Keeping config ns) (fits : ns.Fits)
    (idle : ∀ call ∈ calls, call.isOperation = false) :
    Keeping config (ns.after (calls.map Call.run)) := by
  refine keeping.after enabled calls fun made hmade => ?_
  have twins : (ns.after (made.map Call.run)).Twins ns :=
    twins_after_idle keeping.sound
      fun call hcall => idle call (hmade.subset hcall)
  exact twins.symm.fits fits

/-- The first operation of a run, which succeeds: what comes before it is idle,
and the rest of the run goes on from where it has led to. -/
structure Turn (ns : Namespace) (calls before : List Call) (call : Call)
    (rest : List Call) (next : Namespace) (answer : Answer) : Prop where
  split : calls = before ++ call :: rest
  idle : ∀ other ∈ before, other.isOperation = false
  ask : call.ask (ns.after (before.map Call.run)) = .ok answer next
  answers : ns.answers calls = .ok answer :: next.answers rest
  after :
    ∀ made, ns.after ((before ++ call :: made).map Call.run) =
        next.after (made.map Call.run)

/-- A run that has an operation has a first one. -/
theorem exists_turn {operations : List Call}
    (hoperations : calls.filter Call.isOperation = call :: operations)
    (succeeds : ∀ answer ∈ ns.answers calls, answer.isOk = true) :
    ∃ before rest next answer, rest.filter Call.isOperation = operations ∧
      Turn ns calls before call rest next answer := by
  obtain ⟨before, rest, rfl, idle, operation, hrest⟩ :=
    List.filter_eq_cons_iff.1 hoperations
  simp only [Bool.not_eq_true] at idle
  have hanswers := (answers_idle_append ns idle (call :: rest)).trans
    (answers_operation _ operation rest)
  rw [hanswers] at succeeds
  obtain ⟨answer, next, hask⟩ :=
    Outcome.exists_of_isOk (succeeds _ List.mem_cons_self)
  have hnext :
      Outcome.state (call.run (ns.after (before.map Call.run))) = next := by
    rw [← state_ask, hask]
    rfl
  rw [hask, hnext] at hanswers
  refine ⟨before, rest, next, answer, hrest, rfl, idle, hask, hanswers,
    fun made => ?_⟩
  rw [List.map_append, after_append, ← hnext]
  rfl

/-- The rest of a run fits where the whole run does. -/
theorem Turn.fits {before rest : List Call} {next : Namespace} {answer : Answer}
    (turn : Turn ns calls before call rest next answer)
    (fits : ∀ made, made <+: calls → (ns.after (made.map Call.run)).Fits) :
    ∀ made, made <+: rest → (next.after (made.map Call.run)).Fits := by
  intro made hmade
  rw [← turn.after]
  refine fits _ ?_
  rw [turn.split, List.prefix_append_right_inj]
  exact List.cons_prefix_cons.2 ⟨rfl, hmade⟩

/-- Twins that make the same operations, none of which is refused, get the same
answers and are twins afterwards. -/
theorem Twins.after (enabled : config.quotaEnabled = true)
    {first second : List Call}
    (same : first.filter Call.isOperation = second.filter Call.isOperation)
    (twins : ns.Twins twin) (keeping : Keeping config ns)
    (keeping' : Keeping config twin)
    (fits : ∀ made, made <+: first → (ns.after (made.map Call.run)).Fits)
    (succeeds : ∀ answer ∈ ns.answers first, answer.isOk = true)
    (succeeds' : ∀ answer ∈ twin.answers second, answer.isOk = true) :
    ns.answers first = twin.answers second ∧
      (ns.after (first.map Call.run)).Twins (twin.after (second.map Call.run)) ∧
        Keeping config (twin.after (second.map Call.run)) := by
  -- the runs are aligned at their operations; what lies between them leads from
  -- twin to twin
  generalize hoperations : first.filter Call.isOperation = operations at same
  have start : ns.Fits := fits [] List.nil_prefix
  induction operations generalizing first second ns twin with
  | nil =>
    have idle := List.filter_eq_nil_iff.1 hoperations
    have idle' := List.filter_eq_nil_iff.1 same.symm
    simp only [Bool.not_eq_true] at idle idle'
    have hfirst := answers_idle_append ns idle []
    have hsecond := answers_idle_append twin idle' []
    rw [List.append_nil] at hfirst hsecond
    have early := twins_after_idle keeping.sound idle
    have late := twins_after_idle keeping'.sound idle'
    exact ⟨hfirst.trans hsecond.symm, (early.trans twins).trans late.symm,
      keeping'.after_idle enabled (twins.fits start) idle'⟩
  | cons call operations ih =>
    have operation : call.isOperation = true :=
      (List.mem_filter.1 (hoperations ▸ List.mem_cons_self)).2
    obtain ⟨before, rest, next, a, hrest, turn⟩ :=
      exists_turn hoperations succeeds
    obtain ⟨before', rest', next', b, hrest', turn'⟩ :=
      exists_turn same.symm succeeds'
    have early := twins_after_idle keeping.sound turn.idle
    have late := twins_after_idle keeping'.sound turn'.idle
    have keepingThere := keeping.after_idle enabled start turn.idle
    have keepingThere' :=
      keeping'.after_idle enabled (twins.fits start) turn'.idle
    obtain ⟨rfl, twinsNext⟩ := ((early.trans twins).trans late.symm).ask enabled
      operation keepingThere keepingThere' turn.ask turn'.ask
    have startNext : next.Fits := turn.fits fits [] List.nil_prefix
    have keepingNext :=
      keepingThere.ask enabled (early.symm.fits start) turn.ask startNext
    have keepingNext' := keepingThere'.ask enabled
      (late.symm.fits (twins.fits start)) turn'.ask (twinsNext.fits startNext)
    rw [turn.answers] at succeeds ⊢
    rw [turn'.answers] at succeeds' ⊢
    have hafter := turn.after rest
    have hafter' := turn'.after rest'
    rw [← turn.split] at hafter
    rw [← turn'.split] at hafter'
    rw [hafter, hafter']
    obtain ⟨hanswers, hlast⟩ :=
      ih twinsNext keepingNext keepingNext' (turn.fits fits)
        (fun answer h => succeeds answer (List.mem_cons_of_mem _ h))
        (fun answer h => succeeds' answer (List.mem_cons_of_mem _ h)) hrest
        hrest'.symm startNext
    exact ⟨congrArg _ hanswers, hlast⟩

/-- Merges may come anywhere in a run: two runs that make the same operations,
none of which is refused in either, get the same answers, and a last merge leads
both to the same tree with the same limits and the same cached usage, the same
blocks and the same log, with nothing pending. -/
theorem converges_after (config : Config) (enabled : config.quotaEnabled = true)
    {first second : List Call}
    (same : first.filter Call.isOperation = second.filter Call.isOperation)
    (fits : ∀ made, made <+: first →
      ((fresh config).after (made.map Call.run)).Fits)
    (succeeds : ∀ answer ∈ (fresh config).answers first, answer.isOk = true)
    (succeeds' : ∀ answer ∈ (fresh config).answers second, answer.isOk = true) :
    (fresh config).answers first = (fresh config).answers second ∧
      ∃ count last count' last',
        mergeUpdates ((fresh config).after (first.map Call.run)) =
          .ok count last ∧
        mergeUpdates ((fresh config).after (second.map Call.run)) =
          .ok count' last' ∧
        last.table = last'.table ∧ last.blocks = last'.blocks ∧
        last.edits = last'.edits ∧
        last.ledger.Drained ∧ last'.ledger.Drained := by
  obtain ⟨hanswers, twins, keeping'⟩ := (Twins.refl _).after enabled same
    (keeping_fresh config) (keeping_fresh config) fits succeeds succeeds'
  have keeping := keeping_after enabled first fits
  have fitsLast := fits first (List.prefix_refl _)
  obtain ⟨count, last, h, merged⟩ := exists_mergeUpdates keeping.sound
  obtain ⟨count', last', h', merged'⟩ := exists_mergeUpdates keeping'.sound
  have counted := keeping.counted_merge enabled fitsLast h
  have counted' := keeping'.counted_merge enabled (twins.fits fitsLast) h'
  have twinsLast : last.Twins last' :=
    (merged.twins.trans twins).trans merged'.twins.symm
  exact ⟨hanswers, count, last, count', last', h, h',
    twinsLast.table_eq counted counted', twinsLast.blocks, twinsLast.edits,
    merged.drained keeping.sound h, merged'.drained keeping'.sound h'⟩

/-- A file is written and moved out of a quota, which is then lifted and set
anew. -/
def lazyRun : List Call :=
  [.mkdirs "/a/b" {}, .setQuota "/a" 10 1000, .create "/a/b/f"
    { writer := ⟨"c", ""⟩, blockSize := some 100, replication := some 2 },
    .addBlock "/a/b/f" "c" [], .complete "/a/b/f" "c" 10, .rename "/a/b" "/c",
    .setQuota "/a" (-1) (-1), .setQuota "/a" 5 500, .recount,
    .delete "/c/f" false]

/-- The same with a merge after each call. -/
def eagerRun : List Call :=
  lazyRun.flatMap fun call => [call, .mergeUpdates]

theorem converges_after_lazyRun :
    (∀ answer ∈ (fresh {}).answers lazyRun, answer.isOk = true) ∧
      (fresh {}).answers lazyRun = (fresh {}).answers eagerRun ∧
        ∃ count last count' last',
          mergeUpdates ((fresh {}).after (lazyRun.map Call.run)) =
            .ok count last ∧
          mergeUpdates ((fresh {}).after (eagerRun.map Call.run)) =
            .ok count' last' ∧
          last.table = last'.table ∧ last.blocks = last'.blocks ∧
          last.edits = last'.edits ∧
          last.ledger.Drained ∧ last'.ledger.Drained := by
  have fits :
      ∀ made ∈ lazyRun.inits, ((fresh {}).after (made.map Call.run)).Fits := by
    decide +kernel
  have succeeds :
      ∀ answer ∈ (fresh {}).answers lazyRun, answer.isOk = true := by
    decide +kernel
  have succeeds' :
      ∀ answer ∈ (fresh {}).answers eagerRun, answer.isOk = true := by
    decide +kernel
  exact ⟨succeeds, converges_after {} rfl rfl (fun made hmade =>
    fits made ((List.mem_inits _ _).2 hmade)) succeeds succeeds'⟩

end Namespace

end QuotaTree
