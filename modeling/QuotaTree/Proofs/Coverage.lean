/-
The locks of a request cover what it touches.  A request that follows no symlink
is refused for reasons of its own, or because all identities are used up: it
never comes upon an inode that it has not locked, or that is not there, or that
is not what it takes it for.
-/
import QuotaTree.Proofs.Accounting
import QuotaTree.Proofs.Faults.Arranging
import QuotaTree.Proofs.Faults.Making
import QuotaTree.Proofs.Faults.Writing
import QuotaTree.Proofs.Settling

namespace QuotaTree

open Nodes Work Transaction

namespace Namespace

variable {operation : Operation} {lock : PathLock} {α β : Type}

/-- A request that fails for a reason of its own if it fails, whatever sound
namespace it is made in. -/
def Blameless (request : Request α) : Prop :=
  ∀ ns : Namespace, ns.Sound → Faultless request ns

namespace Blameless

theorem get : Blameless (MonadState.get : Request Namespace) :=
  fun _ _ => .of_ok rfl

theorem changing (f : Namespace → Namespace) :
    Blameless (modify f : Request Unit) :=
  fun _ _ => .of_ok (a := ()) rfl

theorem requireLegal (value : Int) :
    Blameless (Namespace.requireLegal value) := by
  intro ns _
  unfold Namespace.requireLegal
  exact .ite (fun _ => .pure _ _) fun _ => .throw rfl

theorem resolvePath (path : String) : Blameless (Namespace.resolvePath path) :=
  fun _ sound => faultless_resolvePath sound path

/-- What only looks at the namespace comes first. -/
theorem quiet_bind {request : Request α} {next : α → Request β}
    (quiet : Quiet request) (first : Blameless request)
    (rest : ∀ a, Blameless (next a)) : Blameless (request >>= next) := by
  intro ns sound
  refine .bind (first ns sound) fun a ns' h => rest a ns' ?_
  have same := quiet ns
  rw [h] at same
  exact same.sound sound

/-- What always succeeds comes last. -/
theorem bind_ok {request : Request α} {next : α → Request β}
    (first : Blameless request)
    (rest : ∀ a ns, ∃ b ns', next a ns = .ok b ns') :
    Blameless (request >>= next) := by
  intro ns sound
  refine .bind (first ns sound) fun a ns' _ => ?_
  obtain ⟨b, last, h⟩ := rest a ns'
  exact .of_ok h

theorem guarded {p : Prop} [Decidable p] {error : Error}
    {rest : PUnit → Request α} (h : error.isInternal = false)
    (accepted : Blameless (rest ⟨⟩)) :
    Blameless (if p then MonadExcept.throw error >>= rest else rest ⟨⟩) := by
  intro ns sound
  exact .guarded h fun _ => accepted ns sound

theorem discarded {request : Request α} (blameless : Blameless request) :
    Blameless (discard request) :=
  fun ns sound => (blameless ns sound).discarded

/-- A request that goes on with its path once the reserved form is read. -/
theorem resolving {next : String → Request α} (path : String)
    (rest : ∀ path, Blameless (next path)) :
    Blameless (Namespace.resolvePath path >>= next) :=
  quiet_bind (.resolvePath path) (.resolvePath path) rest

/-- A unit of work under the locks of one path. -/
theorem ofPath {work : Work α} (unfollowed : lock.following = false)
    (frames : work.Frames)
    (faultless : ∀ {tx : Transaction} {chain : Chain}
      {rest : List Name}, tx.Ready →
      tx.Grants lock chain rest → Faultless work tx) :
    Blameless (transact operation (.ofPath lock) work) := by
  intro ns sound
  have hunfollowed : ∀ path ∈ [lock], path.following = false := by
    simpa using unfollowed
  refine faultless_transact sound frames hunfollowed fun tx ready grants => ?_
  obtain ⟨chain, rest, granted⟩ := grants lock (List.mem_singleton_self lock)
  exact faultless ready granted

/-- A unit of work on the inode at a path, which is locked for writing. -/
theorem onFile {path : String} {work : Chain → Work α}
    (frames : ∀ chain, (work chain).Frames)
    (faultless : ∀ {tx : Transaction} {chain : Chain}
      {inode : Inode}, Writes tx chain inode →
      Faultless (work chain) tx) :
    Blameless (Namespace.onFile operation path work) := by
  refine .resolving path fun path => ?_
  refine .ofPath rfl (.bind (.read _) frames) fun ready grants => ?_
  refine faultless_resolve grants rfl fun _ => ?_
  obtain ⟨inode, writes⟩ := exists_writes ready grants rfl
  exact faultless writes

end Blameless

theorem blameless_mkdirs (path : String) (permission : Permission) :
    Blameless (mkdirs path permission) :=
  .resolving path
    fun path => .ofPath rfl (.makePath path permission) faultless_makePath

theorem blameless_create (path : String) (options : CreateOptions) :
    Blameless (create path options) := by
  refine .resolving path fun _ => ?_
  refine .quiet_bind .get .get fun ns => ?_
  extract_lets config replication blockSize rest
  refine .guarded rfl (.guarded rfl ?_)
  refine .bind_ok (.ofPath rfl (.createFile _ _ _ _) faultless_createFile)
    fun answer ns' => ?_
  exact ⟨answer.1, _, rfl⟩

theorem blameless_createSymlink (target link : String) (permission : Permission)
    (createParent : Bool) :
    Blameless (createSymlink target link permission createParent) := by
  unfold createSymlink
  extract_lets rest
  refine .guarded rfl (.resolving link fun link => ?_)
  exact .ofPath rfl (.symlinkPath _ _ _ _) faultless_symlinkPath

theorem blameless_delete (path : String) (recursive : Bool) :
    Blameless (delete path recursive) := by
  refine .resolving path fun path => ?_
  refine .bind_ok (.ofPath rfl (.deletePath _ _) faultless_deletePath)
    fun deleted ns => ?_
  cases deleted with
  | none => exact ⟨false, ns, rfl⟩
  | some blocks => exact ⟨true, _, rfl⟩

theorem blameless_rename (source destination : String) :
    Blameless (rename source destination) := by
  refine .resolving source fun source => ?_
  refine .resolving destination fun destination => ?_
  intro ns sound
  have frames : Frames (renamePath source destination) := .renamePath _ _
  refine faultless_transact sound frames (by simp) fun tx ready grants => ?_
  obtain ⟨chain, left, leaving⟩ := grants _ List.mem_cons_self
  obtain ⟨target, rest, entering⟩ :=
    grants _ (List.mem_cons_of_mem _ List.mem_cons_self)
  exact faultless_renamePath ready leaving entering

theorem blameless_changeLimits (path : String) (edit : Edit)
    (liftsInodes : Bool) (change : Counts → Counts) :
    Blameless (changeLimits path edit liftsInodes change) :=
  .resolving path
    fun _ => .ofPath rfl (.changeLimits _ _ _ _) faultless_changeLimits

theorem blameless_setQuota (path : String) (inodes bytes : Int) :
    Blameless (setQuota path inodes bytes) := by
  refine .quiet_bind (.requireLegal inodes) (.requireLegal inodes) fun _ => ?_
  refine .quiet_bind (.requireLegal bytes) (.requireLegal bytes) fun _ => ?_
  extract_lets rest
  exact .guarded rfl (blameless_changeLimits _ _ _ _)

theorem blameless_setTypeQuota (path : String) (type : StorageType)
    (limit : Int) : Blameless (setTypeQuota path type limit) := by
  unfold setTypeQuota
  extract_lets rest
  refine .guarded rfl ?_
  refine .quiet_bind (.requireLegal limit) (.requireLegal limit) fun _ => ?_
  exact blameless_changeLimits _ _ _ _

theorem blameless_setStoragePolicy (path : String) (policy : StoragePolicy) :
    Blameless (setStoragePolicy path policy) :=
  .resolving path
    fun path => .ofPath rfl (.setPolicy path policy) faultless_setPolicy

theorem blameless_setReplication (path : String) (replication : Nat) :
    Blameless (setReplication path replication) := by
  unfold setReplication
  extract_lets rest
  refine .guarded rfl (.resolving path fun path => ?_)
  exact .ofPath rfl (.setReplication _ _) faultless_setReplication

/-- What is entered into the block map afterwards is never refused. -/
theorem blameless_addBlockAs (path client : String) (block : Block)
    (targets : List String) :
    Blameless (addBlockAs path client block targets) := by
  refine .quiet_bind (quiet_past block) (.changing _) fun _ => ?_
  refine .bind_ok (.onFile (.addBlockAt _ _ _) faultless_addBlockAt)
    fun file ns => ?_
  exact ⟨(), _, rfl⟩

theorem blameless_addBlock (path client : String) (targets : List String) :
    Blameless (addBlock path client targets) := by
  have hnext : Blameless nextBlockOut := fun _ _ => .of_ok rfl
  refine .quiet_bind quiet_nextBlockOut hnext fun block => ?_
  refine .bind_ok (blameless_addBlockAs path client block targets)
    fun _ ns => ?_
  exact ⟨block, ns, rfl⟩

theorem blameless_abandonBlock (path client : String) (block : Nat) :
    Blameless (abandonBlock path client block) := by
  refine .bind_ok (.onFile (.abandonAt _ _) faultless_abandonAt)
    fun dropped ns => ?_
  exact ⟨!dropped.isEmpty, _, rfl⟩

theorem blameless_complete (path client : String) (lastLength : Nat) :
    Blameless (complete path client lastLength) :=
  .onFile (.completeAt _ _) faultless_completeAt

theorem blameless_append (path : String) (writer : Writer) :
    Blameless (append path writer) :=
  .onFile (.appendAt _) faultless_appendAt

theorem blameless_writeInline (path client : String) (length : Nat) :
    Blameless (writeInline path client length) := by
  refine .quiet_bind .get .get fun ns => ?_
  extract_lets limit rest
  exact .guarded rfl (.onFile (.writeInlineAt _ _) faultless_writeInlineAt)

/-- Merging always succeeds. -/
theorem blameless_mergeUpdates : Blameless mergeUpdates := by
  intro ns sound
  obtain ⟨count, ns', h, _⟩ := exists_mergeUpdates sound
  exact .of_ok h

theorem blameless_recount : Blameless recount := by
  intro ns sound
  by_cases enabled : ns.config.quotaEnabled = true
  · obtain ⟨_, whole, mid, _, _, _, h⟩ := exists_recount sound enabled
    exact .of_ok h
  · exact .get_bind (.ite (fun h => absurd h enabled) fun _ => .pure _ _)

/-- Looking at the inode at the end of a path. -/
theorem frames_look (path : String) (f : Inode → α) :
    Frames (read (Chain.resolve · path false) >>= fun chain =>
      Work.get chain.last >>= fun inode => Pure.pure (f inode)) :=
  .bind (.read _) fun _ => .bind (.read _) fun _ => .pure _

theorem blameless_status (path : String) : Blameless (status path false) := by
  refine .resolving path fun path => ?_
  refine .ofPath rfl (frames_look path _) fun ready grants => ?_
  refine faultless_resolve grants rfl fun _ => ?_
  obtain ⟨allows, inode, live⟩ := (grants.held ready).last
  exact .bind_of_ok (get_eq_ok.2 ⟨⟨allows, live⟩, rfl⟩) (.pure _ _)

theorem blameless_quotaUsage (path : String) : Blameless (quotaUsage path) := by
  refine .resolving path fun path => ?_
  refine .ofPath rfl (frames_look path _) fun ready grants => ?_
  refine faultless_resolve grants rfl fun _ => ?_
  obtain ⟨allows, inode, live⟩ := (grants.held ready).last
  exact .bind_of_ok (get_eq_ok.2 ⟨⟨allows, live⟩, rfl⟩) (.pure _ _)

theorem blameless_computeUsage (path : String) :
    Blameless (computeUsage path) := by
  have frames (path : String) : Frames (read (Chain.resolve · path false) >>=
        fun chain => Work.usage chain.last) := .bind (.read _) fun _ => .read _
  refine .resolving path fun path => ?_
  refine .ofPath rfl (frames path) fun {tx chain rest} ready grants => ?_
  refine faultless_resolve grants rfl fun hrest => ?_
  obtain ⟨allows, inode, live⟩ := (grants.held ready).last
  obtain ⟨_, _, _, _, husage⟩ :=
    ready.reads.exists_usage ready.wellFormed live fun x hx => by
    by_cases hlast : x = chain.last
    · exact view_opens (hlast ▸ allows)
    · exact view_opens (grants.below hrest rfl x hx hlast)
  exact .of_ok (read_of_ok husage)

theorem blameless_chainOf (path : String) : Blameless (chainOf path false) := by
  refine .resolving path fun path => ?_
  refine .ofPath rfl (.read _) fun _ grants => ?_
  exact faultless_read (Chain.harmless_resolve grants.resolves)

end Namespace

def Query.unfollowing : Query → Bool
  | .status _ following => !following
  | .quotaUsage _ => true
  | .computeUsage _ => true
  | .chainOf _ following => !following
  | _ => false

def Call.unfollowing : Call → Bool
  | .truncate .. => false
  | .query asked => asked.unfollowing
  | _ => true

namespace Namespace

theorem blameless_query {query : Query}
    (unfollowing : query.unfollowing = true) : Blameless query.run := by
  cases query with
  | status path following =>
    obtain rfl : following = false := by
      simpa [Query.unfollowing] using unfollowing
    exact (blameless_status path).discarded
  | quotaUsage path => exact (blameless_quotaUsage path).discarded
  | computeUsage path => exact (blameless_computeUsage path).discarded
  | chainOf path following =>
    obtain rfl : following = false := by
      simpa [Query.unfollowing] using unfollowing
    exact (blameless_chainOf path).discarded
  | listing | summary | resolvePath | fullPath => cases unfollowing

theorem blameless_call {call : Call} (unfollowing : call.unfollowing = true) :
    Blameless call.run := by
  cases call with
  | mkdirs path permission => exact blameless_mkdirs path permission
  | create path options => exact (blameless_create path options).discarded
  | createSymlink target link permission createParent =>
    exact
      (blameless_createSymlink target link permission createParent).discarded
  | addBlock path client targets =>
    exact (blameless_addBlock path client targets).discarded
  | abandonBlock path client block =>
    exact (blameless_abandonBlock path client block).discarded
  | complete path client lastLength =>
    exact blameless_complete path client lastLength
  | append path writer => exact blameless_append path writer
  | writeInline path client length =>
    exact blameless_writeInline path client length
  | truncate => cases unfollowing
  | delete path recursive => exact (blameless_delete path recursive).discarded
  | rename source destination => exact blameless_rename source destination
  | setQuota path inodes bytes => exact blameless_setQuota path inodes bytes
  | setTypeQuota path type limit => exact blameless_setTypeQuota path type limit
  | setStoragePolicy path policy => exact blameless_setStoragePolicy path policy
  | setReplication path replication =>
    exact blameless_setReplication path replication
  | mergeUpdates => exact blameless_mergeUpdates.discarded
  | recount => exact blameless_recount.discarded
  | query asked => exact blameless_query unfollowing

/-- Whatever has happened to a namespace, a call that follows no symlink never
fails inside. -/
theorem covered_after (config : Config) (events : List Event) (call : Call)
    (unfollowing : call.unfollowing = true) :
    (Outcome.error? (call.run
      ((fresh config).after (events.map Event.run)))).any Error.isInternal =
      false := by
  have sound := (sound_fresh config).after events
  rw [Option.any_eq_false]
  intro error herror
  obtain ⟨after, h⟩ := Outcome.error?_eq_some.1 herror
  simpa using blameless_call unfollowing _ sound error after h

/-- A directory with a symlink back to it further down, which is not deleted
since it is not empty. -/
def tangledRun : List Event :=
  [.call (.mkdirs "/a/b" {}), .call (.createSymlink "/a" "/a/b/l" {} false),
    .call (.delete "/a" false)]

/-- To move the directory below itself is refused, but not for a fault. -/
theorem covered_after_tangledRun :
    (Outcome.error? ((Call.rename "/a" "/a/b/c").run
      ((fresh {}).after (tangledRun.map Event.run)))).any Error.isInternal =
      false ∧
    Outcome.error? ((Call.rename "/a" "/a/b/c").run
      ((fresh {}).after (tangledRun.map Event.run))) =
      some (.badArgument (.movesBelowItself "/a" "/a/b/c")) :=
  ⟨covered_after {} tangledRun _ rfl, by decide +kernel⟩

end Namespace

end QuotaTree
