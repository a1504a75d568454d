/-
The listing of a subtree: an entry for each inode, and its text, a line for each
entry, indented by its depth, with the quota of each directory that has one.
-/
import QuotaTree.Request.Status

namespace QuotaTree

/-- The answer to a request that is made only to read. -/
def Namespace.ask {α : Type} (ns : Namespace) (request : Request α) :
    Except Error α :=
  match request ns with
  | .ok value _ => .ok value
  | .error error _ => .error error

/-- One inode of a listing. -/
structure Entry where
  /-- Levels below the inode that the listing starts with. -/
  depth : Nat
  /-- The name under which the inode is shown. -/
  shown : String
  status : Status
  quota : Option Quota := none
  deriving DecidableEq, Repr

namespace Entry

/-- Two blanks for each level. -/
def indent (depth : Nat) : String :=
  String.join (List.replicate depth "  ")

/-- The beginning of a line, which ends in a slash for a directory. -/
def head (depth : Nat) (shown : String) (kind : FileKind) : String :=
  indent depth ++ shown ++ match kind with
    | .directory => "/"
    | _ => ""

def quotaText : Option Quota → String
  | some quota =>
    "  quota=" ++ quota.limits.text ++ " consumed=" ++ quota.cached.text
  | none => ""

def fileText (status : Status) : String :=
  "  len=" ++ toString status.length ++ " repl=" ++
    toString status.replication ++
    " blocks=" ++ toString status.blocks ++ " policy=" ++
      (status.policy.getD .hot).name

/-- What is told of the inode after its name. -/
def detail (entry : Entry) : String :=
  match entry.status.kind with
  | .directory => quotaText entry.quota
  | .file => fileText entry.status
  | .symlink => " -> " ++ entry.status.target.getD ""

def line (entry : Entry) : String :=
  head entry.depth entry.shown entry.status.kind ++ entry.detail ++ "\n"

end Entry

/-- The inodes that have been listed, and what stopped the listing. -/
structure Listing where
  entries : List Entry
  /-- The beginning of a line that was not finished. -/
  unfinished : String := ""
  failure : Option Error := none
  deriving DecidableEq, Repr

namespace Listing

def text (listing : Listing) : String :=
  String.join (listing.entries.map Entry.line) ++ listing.unfinished

/-- Go on with more, unless the listing has stopped. -/
def followedBy (listing : Listing) (next : Unit → Listing) : Listing :=
  match listing.failure with
  | some _ => listing
  | none =>
    let more := next ()
    { more with entries := listing.entries ++ more.entries }

/-- The inode at a path, by the name under which it is shown, with everything
below it. -/
def ofPath (ns : Namespace) : Nat → Nat → Option String → String → Listing
  | 0, _, _, _ => { entries := [], failure := some (.fault (.endless .root)) }
  | levels + 1, depth, shown, path =>
    match ns.ask (Namespace.status path false) with
    | .error error => { entries := [], failure := some error }
    | .ok status =>
      let shown := shown.getD status.name
      match status.kind with
      | .directory =>
        match ns.ask (Namespace.quotaUsage path) with
        | .error error =>
          let unfinished := Entry.head depth shown .directory
          { entries := [], unfinished, failure := some error }
        | .ok quota =>
          let entries : List Entry := [{ depth, shown, status, quota }]
          match ns.ask (Namespace.listing path) with
          | .error error => { entries, failure := some error }
          | .ok children => children.foldl (fun listing child =>
                listing.followedBy fun () =>
                  ofPath ns levels (depth + 1) none
              (Path.child path child.name)) { entries }
      | _ => { entries := [{ depth, shown, status }] }

end Listing

/-- The listing of the subtree at a path, which is shown as it was given. -/
def Namespace.listTree (ns : Namespace) (path : String) : Listing :=
  Listing.ofPath ns (ns.table.size + 1) 0 (some path) path

end QuotaTree
