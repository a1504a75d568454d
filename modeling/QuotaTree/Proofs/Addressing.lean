/-
Addressing inodes by number is transparent: every request does the same with
such a path as with the full path of the inode, but for the edits of the
requests that set limits, which are written with the path as it was given.
-/
import QuotaTree.Proofs.Reachable
import QuotaTree.Proofs.Tree.Address

namespace QuotaTree

namespace Path

variable {path : String} {components : List String}

/-- The path of what lies below an inode that lives at a path; below the root
its own slash is left out. -/
def below (id : InodeId) (base : String) (components : List String) : String :=
  if components = [] then base
  else (if id = .root then "" else base) ++ suffix components

theorem isOrdinary_iff {component : String} :
    isOrdinary component = true ↔
      isComponent component.toList = true ∧ '/' ∉ component.toList := by
  simp [isOrdinary]

end Path

namespace Namespace

open QuotaTree.Path

variable {ns : Namespace} {chain : Chain} {components : List String}

def addressParts (chain : Chain) (components : List String) :
    List (List Char) :=
  chain.names.map (·.text.toList) ++ components.map String.toList

section Address

variable (sound : ns.Sound) (leads : Chain.Leads ns.table.tree chain)
  (ordinary : ∀ component ∈ components, isOrdinary component = true)

include ordinary in
theorem clean_components :
    ∀ part ∈ components.map String.toList, '/' ∉ part ∧ part ≠ [] := by
  intro part hpart
  obtain ⟨component, hcomponent, rfl⟩ := List.mem_map.1 hpart
  obtain ⟨hpiece, hclean⟩ := isOrdinary_iff.1 (ordinary component hcomponent)
  exact ⟨hclean, isComponent_ne_nil hpiece⟩

include sound leads ordinary in
theorem clean_addressParts :
    ∀ part ∈ addressParts chain components, '/' ∉ part ∧ part ≠ [] := by
  intro part hpart
  rcases List.mem_append.1 hpart with hname | hcomponent
  · exact clean_names (sound.books.proper_names leads) part hname
  · exact clean_components ordinary part hcomponent

include sound leads in
theorem last_eq_root_iff : chain.last = .root ↔ chain.names = [] := by
  rw [(leads.proper sound.books.wellFormed).last_eq_root_iff]
  cases chain with
  | root => simp [Chain.names]
  | child => simp [Chain.names]

include sound leads in
theorem toList_below (h : addressParts chain components ≠ []) :
    (below chain.last chain.path components).toList =
      rooted (addressParts chain components) := by
  have hnames (hne : chain.names ≠ []) :
      chain.path.toList = rooted (chain.names.map (·.text.toList)) :=
    toList_ofNames hne
  rw [below, addressParts, rooted_append]
  split
  next hnil =>
    subst hnil
    rw [hnames (by simpa [addressParts] using h)]
    simp
  next =>
    rw [String.toList_append, toList_suffix]
    split
    next hroot => rw [(last_eq_root_iff sound leads).1 hroot]; rfl
    next hroot =>
      rw [hnames fun hnil => hroot ((last_eq_root_iff sound leads).2 hnil)]

include sound leads in
/-- No inode is numbered by the parts of an address, unless they are those of a
number below the root. -/
theorem addressParts_ne
    (plain : chain.last = .root →
      ∀ number rest, components ≠ reservedName :: inodesName :: number :: rest)
    (number : List Char) (rest : List (List Char)) :
    addressParts chain components ≠
      reservedName.toList :: inodesName.toList :: number :: rest := by
  intro h
  cases hnames : chain.names with
  | nil =>
    have hplain := plain ((last_eq_root_iff sound leads).2 hnames)
    rw [addressParts, hnames, List.map_nil, List.nil_append] at h
    refine hplain (String.ofList number) (rest.map String.ofList) ?_
    have htexts := congrArg (List.map String.ofList) h
    simpa [Function.comp_def] using htexts
  | cons first names =>
    -- a name directly below the root is not the reserved one
    have hproper :=
      sound.books.proper_names leads first (hnames ▸ List.mem_cons_self)
    have hhead := sound.books.head_names_ne leads
    rw [addressParts, hnames, List.map_cons, List.cons_append] at h
    have htext : first.text = reservedName :=
      String.toList_inj.1 (List.cons.inj h).1
    rw [hnames, List.head?_cons, ← hproper.ofText, htext] at hhead
    exact hhead rfl

include sound leads ordinary in
/-- The path of what lies below an inode stands for itself. -/
theorem resolveReserved_below
    (plain : chain.last = .root →
      ∀ number rest, components ≠
        reservedName :: inodesName :: number :: rest) :
    resolveReserved ns.table.view (below chain.last chain.path components) =
      .ok (below chain.last chain.path components) := by
  by_cases hparts : addressParts chain components = []
  · obtain ⟨hnames, hcomponents⟩ := List.append_eq_nil_iff.1 hparts
    rw [List.map_eq_nil_iff] at hnames hcomponents
    subst hcomponents
    rw [below, if_pos rfl, Chain.path, hnames]
    rfl
  · have hclean := clean_addressParts sound leads ordinary
    rw [resolveReserved, filter_pieces (fun part h => (hclean part h).1)
      (fun part h => (hclean part h).2) (toList_below sound leads hparts)]
    split
    next first second number rest heq =>
      rw [if_neg]
      · rfl
      rintro ⟨rfl, rfl⟩
      exact addressParts_ne sound leads plain number rest heq
    next => rfl

include sound leads in
/-- Joining components to the path of an inode leaves out the slash of the
root's own path. -/
theorem child_path (h : components ≠ []) :
    child chain.path (String.intercalate "/" components) =
      below chain.last chain.path components := by
  have hbase : dropEndSlashes chain.path.toList =
      (if chain.last = .root then "" else chain.path).toList := by
    split
    next hroot =>
      rw [Chain.path, (last_eq_root_iff sound leads).1 hroot]
      rfl
    next hroot =>
      have hnames := mt (last_eq_root_iff sound leads).2 hroot
      have hclean := @clean_addressParts ns chain [] sound leads fun _ h => by
        cases h
      have hpath := @toList_below ns chain [] sound leads
        (by simpa [addressParts] using hnames)
      rw [below, if_pos rfl] at hpath
      rw [hpath]
      exact dropEndSlashes_rooted (fun part h => (hclean part h).1)
        fun part h => (hclean part h).2
  rw [below, if_neg h, ← String.toList_inj, child, String.toList_append,
    String.toList_append, String.toList_append, String.toList_ofList, hbase,
    toList_suffix, String.toList_intercalate, List.append_assoc,
    ← intercalate_eq_rooted (by simpa using h)]
  rfl

include sound leads ordinary in
theorem ofReserved_text (path : String) :
    ofReserved ns.table.view path chain.last.text.toList
      (components.map String.toList) =
      .ok (below chain.last chain.path components) := by
  have wf : ns.table.tree.WellFormed := sound.books.wellFormed
  obtain ⟨inode, live⟩ := leads.live wf
  have hbound : chain.last.val ≤ InodeId.maxVal :=
    Nat.le_trans (Nat.le_of_lt (sound.books.below live)) sound.books.bounded
  have hparent : ns.table.view.parentOf chain.last = .ok inode.parent := by
    rw [View.parentOf, (InodeTable.view_opens _).get live]
    rfl
  have hdots : dotDot ∉ components.map String.toList := by
    intro hmem
    obtain ⟨component, hcomponent, htext⟩ := List.mem_map.1 hmem
    have hpiece := (isOrdinary_iff.1 (ordinary component hcomponent)).1
    rw [htext] at hpiece
    cases hpiece
  have hfull := InodeTable.fullPath_of_leads wf leads
  rw [ofReserved, String.ofList_toList, InodeId.parse_text hbound]
  dsimp only
  cases components with
  | nil =>
    rw [hparent, hfull, below, if_pos rfl]
    split
    next h =>
      rw [Chain.path, (last_eq_root_iff sound leads).1 h.1]
      rfl
    next => rfl
  | cons component rest =>
    have hsingle : (component :: rest).map String.toList ≠ [dotDot] := fun h =>
      hdots (h ▸ List.mem_cons_self)
    have hlist :
        ((component :: rest).map String.toList).map String.ofList =
          component :: rest := by
      rw [List.map_map]
      exact List.map_id'' (fun _ => String.ofList_toList) _
    rw [if_neg (by simp), hparent, hfull]
    dsimp only
    rw [if_neg (by simp), if_neg hsingle, if_neg hdots, hlist,
      ← child_path sound leads (List.cons_ne_nil _ _)]
    rfl

include sound leads ordinary in
/-- A path that addresses an inode by its number stands for where it lives. -/
theorem resolveReserved_reservedPath :
    resolveReserved ns.table.view (chain.last.reservedPath ++
      suffix components) = .ok (below chain.last chain.path components) := by
  have hpath :
      (chain.last.reservedPath ++ suffix components).toList =
        rooted (reservedName.toList :: inodesName.toList ::
          chain.last.text.toList :: components.map String.toList) := by
    simp only [InodeId.reservedPath, String.toList_append, toList_suffix,
      rooted_cons]
    rfl
  have hclean :
      ∀ part ∈ reservedName.toList :: inodesName.toList ::
          chain.last.text.toList :: components.map String.toList,
        '/' ∉ part ∧ part ≠ [] := by
    simp only [List.forall_mem_cons]
    refine ⟨by decide, by decide, ⟨InodeId.slash_not_mem_text _, ?_⟩,
      clean_components ordinary⟩
    rw [InodeId.toList_text]
    exact Nat.toDigits_ne_nil
  rw [resolveReserved, filter_pieces (fun part h => (hclean part h).1)
    (fun part h => (hclean part h).2) hpath]
  dsimp only
  rw [if_pos ⟨rfl, rfl⟩]
  exact ofReserved_text sound leads ordinary _

end Address

variable {α β : Type} {path other : String}

def Coincide (ns : Namespace) (path other : String) : Prop :=
  resolveReserved ns.table.view path = resolveReserved ns.table.view other

/-- A request that resolves its path first does the same with both. -/
theorem Coincide.bind (same : ns.Coincide path other)
    (next : String → Request α) :
    (resolvePath path >>= next) ns = (resolvePath other >>= next) ns := by
  have hresolve : resolvePath path ns = resolvePath other ns := by
    unfold resolvePath
    rw [same]
  change EStateM.bind _ _ ns = EStateM.bind _ _ ns
  rw [EStateM.bind, hresolve, EStateM.bind]

end Namespace

/-- A request that is made of a path, with all its other arguments. -/
inductive PathCall : Type → Type 1 where
  | mkdirs (permission : Permission) : PathCall Unit
  | create (options : CreateOptions) : PathCall InodeId
  | createSymlink (target : String) (permission : Permission)
      (createParent : Bool) : PathCall InodeId
  | addBlock (client : String) (targets : List String) : PathCall Block
  | abandonBlock (client : String) (block : Nat) : PathCall Bool
  | complete (client : String) (lastLength : Nat) : PathCall Unit
  | append (writer : Writer) : PathCall Unit
  | writeInline (client : String) (length : Nat) : PathCall Unit
  | truncate (length : Int) : PathCall Unit
  | delete (recursive : Bool) : PathCall Bool
  | renameFrom (destination : String) : PathCall Unit
  | renameTo (source : String) : PathCall Unit
  | setQuota (inodes bytes : Int) : PathCall Unit
  | setTypeQuota (type : StorageType) (limit : Int) : PathCall Unit
  | setStoragePolicy (policy : StoragePolicy) : PathCall Unit
  | setReplication (replication : Nat) : PathCall Unit
  | status (following : Bool) : PathCall Status
  | listing : PathCall (List Status)
  | quotaUsage : PathCall (Option Quota)
  | computeUsage : PathCall Counts
  | summary : PathCall Summary
  | chainOf (following : Bool) : PathCall Chain
  | resolvePath : PathCall String

namespace PathCall

variable {α : Type}

def run : PathCall α → String → Request α
  | .mkdirs permission, path => Namespace.mkdirs path permission
  | .create options, path => Namespace.create path options
  | .createSymlink target permission createParent, path =>
    Namespace.createSymlink target path permission createParent
  | .addBlock client targets, path => Namespace.addBlock path client targets
  | .abandonBlock client block, path => Namespace.abandonBlock path client block
  | .complete client lastLength, path =>
    Namespace.complete path client lastLength
  | .append writer, path => Namespace.append path writer
  | .writeInline client length, path => Namespace.writeInline path client length
  | .truncate length, path => Namespace.truncate path length
  | .delete recursive, path => Namespace.delete path recursive
  | .renameFrom destination, path => Namespace.rename path destination
  | .renameTo source, path => Namespace.rename source path
  | .setQuota inodes bytes, path => Namespace.setQuota path inodes bytes
  | .setTypeQuota type limit, path => Namespace.setTypeQuota path type limit
  | .setStoragePolicy policy, path => Namespace.setStoragePolicy path policy
  | .setReplication replication, path =>
    Namespace.setReplication path replication
  | .status following, path => Namespace.status path following
  | .listing, path => Namespace.listing path
  | .quotaUsage, path => Namespace.quotaUsage path
  | .computeUsage, path => Namespace.computeUsage path
  | .summary, path => Namespace.summary path
  | .chainOf following, path => Namespace.chainOf path following
  | .resolvePath, path => Namespace.resolvePath path

/-- The edit of a request that writes its path as it was given. -/
def written? : PathCall α → Option (String → Edit)
  | .setQuota inodes bytes => some fun path => .setQuota path inodes bytes
  | .setTypeQuota type limit => some fun path => .setTypeQuota path type limit
  | _ => none

/-- The request has done the same with two paths: it gave the same answer or
failed in the same way, and left the same namespace, but for an edit that is
written with the path itself. -/
def Agrees (call : PathCall α) (path other : String) :
    EStateM.Result Error Namespace α → EStateM.Result Error Namespace α → Prop
  | .ok answer ns, .ok answer' ns' =>
    answer = answer' ∧
      match call.written? with
      | none => ns = ns'
      | some edit => ∃ before : Namespace,
          ns = before.journal [edit path] ∧ ns' = before.journal [edit other]
  | .error error ns, .error error' ns' =>
    error.ctorIdx = error'.ctorIdx ∧ ns = ns'
  | _, _ => False

theorem agrees_of_eq {call : PathCall α} {path other : String}
    {result result' : EStateM.Result Error Namespace α}
    (plain : call.written? = none) (same : result = result') :
    call.Agrees path other result result' := by
  subst same
  cases result with
  | ok answer ns => simp [Agrees, plain]
  | error error ns => exact ⟨rfl, rfl⟩

/-- What is done first without the path does not tell the two apart. -/
theorem Agrees.bind {β : Type} {call : PathCall α} {path other : String}
    {ns : Namespace} {first : Request β} {left right : β → Request α}
    (rest : ∀ b mid, first ns = .ok b mid →
      call.Agrees path other (left b mid) (right b mid)) :
    call.Agrees path other ((first >>= left) ns) ((first >>= right) ns) := by
  cases h : first ns with
  | ok b mid =>
    rw [Outcome.bind_of_ok h, Outcome.bind_of_ok h]
    exact rest b mid h
  | error error last =>
    rw [Outcome.bind_of_error h, Outcome.bind_of_error h]
    exact ⟨rfl, rfl⟩

end PathCall

namespace Work

open Transaction

variable {α : Type} {edit edit' : Edit}

/-- Two pieces of work do the same, but end by writing different edits. -/
def UpToEdit (edit edit' : Edit) (left right : Work Unit) : Prop :=
  ∀ tx : Transaction,
    (∃ error last, left tx = .error error last ∧ right tx = .error error last) ∨
    ∃ last : Transaction, left tx = .ok () (last.journaled edit) ∧
      right tx = .ok () (last.journaled edit')

namespace UpToEdit

theorem throw (error : Error) :
    UpToEdit edit edit' (MonadExcept.throw error) (MonadExcept.throw error) :=
  fun tx => .inl ⟨error, tx, rfl, rfl⟩

theorem journal (edit edit' : Edit) :
    UpToEdit edit edit' (Work.journal edit) (Work.journal edit') :=
  fun tx => .inr ⟨tx, rfl, rfl⟩

theorem bind {work : Work α} {left right : α → Work Unit}
    (rest : ∀ a, UpToEdit edit edit' (left a) (right a)) :
    UpToEdit edit edit' (work >>= left) (work >>= right) := by
  intro tx
  cases h : work tx with
  | ok a mid =>
    rw [Outcome.bind_of_ok h, Outcome.bind_of_ok h]
    exact rest a mid
  | error error last =>
    rw [Outcome.bind_of_error h, Outcome.bind_of_error h]
    exact .inl ⟨error, last, rfl, rfl⟩

theorem changeLimits (path : String) (edit edit' : Edit) (liftsInodes : Bool)
    (change : Counts → Counts) :
    UpToEdit edit edit' (Work.changeLimits path edit liftsInodes change)
      (Work.changeLimits path edit' liftsInodes change) := by
  refine bind fun chain => ?_
  dsimp only
  split
  · exact throw _
  · refine bind fun ids => ?_
    refine bind fun used => ?_
    refine bind fun pending => ?_
    refine bind fun inode => ?_
    split
    · exact throw _
    · exact bind fun _ => journal edit edit'

end UpToEdit

end Work

namespace Namespace

open QuotaTree.Path

variable {ns : Namespace} {path other : String}

theorem commit_journaled (tx : Transaction) (edit : Edit) :
    (tx.journaled edit).commit = tx.commit.journal [edit] := by
  have htable : (tx.journaled edit).tableAfter = tx.tableAfter := rfl
  have hledger : (tx.journaled edit).ledgerAfter = tx.ledgerAfter := rfl
  simp only [Transaction.commit, Transaction.unlock, journal_eq, htable,
    hledger, Transaction.journaled_base, Transaction.journaled_edits,
    Transaction.journaled_locks]
  split
  next => rw [List.append_assoc]
  next => rw [List.append_nil, List.append_nil]

theorem Coincide.changeLimits (same : ns.Coincide path other)
    (edit edit' : Edit) (liftsInodes : Bool) (change : Counts → Counts) :
    (∃ error last, changeLimits path edit liftsInodes change ns =
      .error error last ∧
        changeLimits other edit' liftsInodes change ns = .error error last) ∨
      ∃ before : Namespace,
        changeLimits path edit liftsInodes change ns =
          .ok () (before.journal [edit]) ∧
        changeLimits other edit' liftsInodes change ns =
          .ok () (before.journal [edit']) := by
  have hfirst := same.bind fun path => transact .setQuota
    (.ofPath { path, kind := .write, scope := .subtree, belowMode := .read })
    (Work.changeLimits path edit liftsInodes change)
  unfold Namespace.changeLimits
  rw [hfirst]
  cases hresolve : resolvePath other ns with
  | error error last =>
    rw [Outcome.bind_of_error hresolve, Outcome.bind_of_error hresolve]
    exact .inl ⟨error, last, rfl, rfl⟩
  | ok resolved mid =>
    rw [Outcome.bind_of_ok hresolve, Outcome.bind_of_ok hresolve]
    unfold transact
    cases mid.begin .setQuota _ with
    | error error => exact .inl ⟨error, mid, rfl, rfl⟩
    | ok tx =>
      dsimp only
      rcases Work.UpToEdit.changeLimits resolved edit edit' liftsInodes
        change tx with
        ⟨error, last, hleft, hright⟩ | ⟨last, hleft, hright⟩
      · rw [hleft, hright]
        exact .inl ⟨error, last.rollback, rfl, rfl⟩
      · have hremovals (edit : Edit) :
            Transaction.checkRemovals (last.journaled edit).base.table
              (last.journaled edit).writes.toList =
              Transaction.checkRemovals last.base.table last.writes.toList :=
          rfl
        simp only [hleft, hright, hremovals]
        cases Transaction.checkRemovals last.base.table last.writes.toList with
        | error fault => exact .inl ⟨.fault fault, last.rollback, rfl, rfl⟩
        | ok done =>
          exact .inr ⟨last.commit, by rw [← commit_journaled], by
            rw [← commit_journaled]⟩

theorem Coincide.onFile {α : Type} (same : ns.Coincide path other)
    (operation : Operation) (work : Chain → Work α) :
    onFile operation path work ns = onFile operation other work ns :=
  same.bind _

/-- Numbers are given out before the path is looked at. -/
theorem Coincide.addBlock (same : ns.Coincide path other) (client : String)
    (targets : List String) :
    addBlock path client targets ns = addBlock other client targets ns := by
  have hadd (block : Block) (ns' : Namespace) (htable : ns'.table = ns.table) :
      addBlockAs path client block targets ns' =
        addBlockAs other client block targets ns' := by
    have hraised : Coincide
        { ns' with
          nextBlock := max ns'.nextBlock (block.id + 1)
          nextStamp := max ns'.nextStamp (block.stamp + 1) } path other := by
      unfold Coincide
      rw [show InodeTable.view _ =
        ns.table.view from congrArg InodeTable.view htable]
      exact same
    change EStateM.bind (Namespace.onFile _ path _) _ _ =
      EStateM.bind (Namespace.onFile _ other _) _ _
    unfold EStateM.bind
    rw [hraised.onFile]
  change EStateM.bind (addBlockAs path client _ targets) _ _ =
    EStateM.bind (addBlockAs other client _ targets) _ _
  unfold EStateM.bind
  rw [hadd]
  rfl

/-- Setting limits is the same with both paths, but for the edit that is
written. -/
theorem Coincide.agrees_changeLimits {call : PathCall Unit}
    {edit : String → Edit} (same : ns.Coincide path other)
    (written : call.written? = some edit) (liftsInodes : Bool)
    (change : Counts → Counts) :
    call.Agrees path other
      (Namespace.changeLimits path (edit path) liftsInodes change ns)
      (Namespace.changeLimits other (edit other) liftsInodes change ns) := by
  rcases same.changeLimits (edit path) (edit other) liftsInodes change with
    ⟨error, last, hleft, hright⟩ | ⟨before, hleft, hright⟩
  · rw [hleft, hright]
    exact ⟨rfl, rfl⟩
  · rw [hleft, hright]
    refine ⟨rfl, ?_⟩
    rw [written]
    exact ⟨before, rfl, rfl⟩

theorem Coincide.setQuota (same : ns.Coincide path other) (inodes bytes : Int) :
    (PathCall.setQuota inodes bytes).Agrees path other
      (setQuota path inodes bytes ns) (setQuota other inodes bytes ns) := by
  have written : (PathCall.setQuota inodes bytes).written? =
    some fun path => .setQuota path inodes bytes := rfl
  refine .bind fun _ mid hinodes => ?_
  refine .bind fun _ last hbytes => ?_
  obtain ⟨_, rfl⟩ := requireLegal_eq_ok.1 hinodes
  obtain ⟨_, rfl⟩ := requireLegal_eq_ok.1 hbytes
  dsimp only
  split
  next => exact ⟨rfl, rfl⟩
  next => exact same.agrees_changeLimits written _ _

theorem Coincide.setTypeQuota (same : ns.Coincide path other)
    (type : StorageType) (limit : Int) :
    (PathCall.setTypeQuota type limit).Agrees path other
      (setTypeQuota path type limit ns) (setTypeQuota other type limit ns) := by
  have written : (PathCall.setTypeQuota type limit).written? =
    some fun path => .setTypeQuota path type limit := rfl
  unfold Namespace.setTypeQuota
  dsimp only
  split
  next => exact ⟨rfl, rfl⟩
  next =>
    refine .bind fun _ mid hlimit => ?_
    obtain ⟨_, rfl⟩ := requireLegal_eq_ok.1 hlimit
    exact same.agrees_changeLimits written _ _

/-- A request does the same with two paths that stand for the same one. -/
theorem Coincide.agrees {α : Type} (same : ns.Coincide path other)
    (call : PathCall α) :
    call.Agrees path other (call.run path ns) (call.run other ns) := by
  cases call with
  | mkdirs | create | truncate | delete | renameFrom | status | listing
  | quotaUsage | computeUsage
  | summary | chainOf | setStoragePolicy =>
    exact PathCall.agrees_of_eq rfl (same.bind _)
  | abandonBlock client block =>
    refine PathCall.agrees_of_eq rfl ?_
    change EStateM.bind _ _ ns = EStateM.bind _ _ ns
    rw [EStateM.bind, same.onFile, EStateM.bind]
  | complete | append => exact PathCall.agrees_of_eq rfl (same.onFile _ _)
  | createSymlink target permission createParent =>
    refine PathCall.agrees_of_eq rfl ?_
    change createSymlink target path permission createParent ns =
      createSymlink _ _ _ _ ns
    unfold createSymlink
    dsimp only
    split
    next => rfl
    next => exact same.bind _
  | addBlock client targets =>
    exact PathCall.agrees_of_eq rfl (same.addBlock client targets)
  | writeInline client length =>
    refine PathCall.agrees_of_eq rfl ?_
    change writeInline path client length ns =
      writeInline other client length ns
    unfold writeInline
    rw [Outcome.get_bind, Outcome.get_bind]
    dsimp only
    split
    next => rfl
    next => exact same.onFile _ _
  | renameTo source =>
    refine PathCall.agrees_of_eq rfl ?_
    change rename source path ns = rename source other ns
    unfold rename
    cases h : resolvePath source ns with
    | ok resolved mid =>
      obtain ⟨_, rfl⟩ := resolvePath_eq_ok.1 h
      rw [Outcome.bind_of_ok h, Outcome.bind_of_ok h]
      exact same.bind _
    | error error last => rw [Outcome.bind_of_error h, Outcome.bind_of_error h]
  | setQuota inodes bytes => exact same.setQuota inodes bytes
  | setTypeQuota type limit => exact same.setTypeQuota type limit
  | setReplication replication =>
    change PathCall.Agrees _ path other (setReplication path replication ns)
      (setReplication _ _ ns)
    unfold setReplication
    dsimp only
    split
    next => exact ⟨rfl, rfl⟩
    next => exact PathCall.agrees_of_eq rfl (same.bind _)
  | resolvePath =>
    refine PathCall.agrees_of_eq rfl ?_
    have h := same.bind (fun path => (pure path : Request String))
    rw [bind_pure, bind_pure] at h
    exact h

/-- In every namespace that can come about, a request does the same with the
number of an inode as with its full path, and with what lies below it, unless
that path addresses an inode by number in its turn; of the edits, only those
that set limits are written with the path as it was given. -/
theorem agrees_addressed (config : Config) (events : List Event) {id : InodeId}
    {components : List String} {α : Type} (call : PathCall α)
    (live : ((fresh config).after (events.map Event.run)).table.contains id =
      true)
    (ordinary : ∀ component ∈ components, isOrdinary component = true)
    (plain : id = .root →
      ∀ number rest, components ≠
        reservedName :: inodesName :: number :: rest) :
    ∃ base,
      fullPath id ((fresh config).after (events.map Event.run)) =
        .ok base ((fresh config).after (events.map Event.run)) ∧
      call.Agrees (id.reservedPath ++ suffix components)
        (below id base components)
        (call.run (id.reservedPath ++ suffix components)
          ((fresh config).after (events.map Event.run)))
        (call.run (below id base components)
          ((fresh config).after (events.map Event.run))) := by
  have sound := (sound_fresh config).after events
  generalize (fresh config).after (events.map Event.run) = ns at live sound ⊢
  obtain ⟨inode, hlive⟩ := Option.isSome_iff_exists.1 live
  obtain ⟨chain, leads, rfl⟩ := Chain.exists_leads sound.books.wellFormed hlive
  refine ⟨chain.path, ?_, ?_⟩
  · rw [fullPath, if_pos live,
      InodeTable.fullPath_of_leads sound.books.wellFormed leads]
  · apply Coincide.agrees
    unfold Coincide
    rw [resolveReserved_reservedPath sound leads ordinary,
      resolveReserved_below sound leads ordinary plain]

/-- A directory with another below it, made after an identity was used up in
vain, and moved. -/
def movedRun : List Event :=
  [.call (.mkdirs "/.reserved" {}), .call (.mkdirs "/a/b" {}),
    .call (.rename "/a" "/c")]

theorem agrees_addressed_movedRun :
    ((fresh {}).after (movedRun.map Event.run)).table.contains ⟨4⟩ = true ∧
      isOrdinary "f" = true ∧
      ∃ base,
        fullPath ⟨4⟩ ((fresh {}).after (movedRun.map Event.run)) =
          .ok base ((fresh {}).after (movedRun.map Event.run)) ∧
        (PathCall.create { writer := ⟨"c", ""⟩ }).Agrees
          ("/.reserved/.inodes/4" ++ suffix ["f"])
          (below ⟨4⟩ base ["f"])
          (create ("/.reserved/.inodes/4" ++ suffix ["f"])
            { writer := ⟨"c", ""⟩ }
            ((fresh {}).after (movedRun.map Event.run)))
          (create (below ⟨4⟩ base ["f"]) { writer := ⟨"c", ""⟩ }
            ((fresh {}).after (movedRun.map Event.run))) := by
  have live :
      ((fresh {}).after (movedRun.map Event.run)).table.contains ⟨4⟩ =
        true := by
    decide +kernel
  refine ⟨live, by decide, ?_⟩
  exact agrees_addressed {} movedRun (.create { writer := ⟨"c", ""⟩ }) live
    (by decide) nofun

/-- A directory that is made after an identity was used up in vain. -/
def numberedRun : List Event :=
  [.call (.mkdirs "/.reserved" {}), .call (.mkdirs "/a" {})]

/-- Setting limits by number is written by number, and the number means nothing
in a namespace that is built again from the log. -/
theorem not_transparent_numberedRun :
    ((fresh {}).after (numberedRun.map Event.run)).table.view.fullPath ⟨3⟩ =
      .ok "/a" ∧
      Outcome.state
          (setQuota "/.reserved/.inodes/3" 10 Limit.none
            ((fresh {}).after (numberedRun.map Event.run))) ≠
        Outcome.state
          (setQuota "/a" 10 Limit.none
            ((fresh {}).after (numberedRun.map Event.run))) ∧
      Outcome.error?
          (replay
            (Outcome.state
              (setQuota "/.reserved/.inodes/3" 10 Limit.none
                ((fresh {}).after (numberedRun.map Event.run)))).edits
              (fresh {})) =
        some (.missing
          "File for given inode path does not exist: /.reserved/.inodes/3") ∧
      Outcome.error?
          (replay
            (Outcome.state
              (setQuota "/a" 10 Limit.none
                ((fresh {}).after (numberedRun.map Event.run)))).edits
              (fresh {})) = none := by
  decide +kernel

end Namespace

end QuotaTree
