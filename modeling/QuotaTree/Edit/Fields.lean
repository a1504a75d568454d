/-
Edits as fields of a document, and the log as an array of tables.  Every field
of an edit must be there; fields that an edit has not are passed over.  An edit
may also be read from an array, which has the tag and the fields in their order.
-/
import QuotaTree.Document.Reader
import QuotaTree.Document.Writer
import QuotaTree.Edit

namespace QuotaTree

open Document (Value Fields maxShort maxLong)

def Permission.toFields (permission : Permission) : Fields :=
  [("user", .text permission.user), ("group", .text permission.group),
    ("mode", .int permission.mode)]

def Permission.fieldNames : List String := ["user", "group", "mode"]

def Permission.ofFields? (fields : Fields) : Option Permission := do
  let user ← fields.text? "user"
  let group ← fields.text? "group"
  let mode ← fields.nat? maxShort "mode"
  pure { user, group, mode }

def Block.toFields (block : Block) : Fields :=
  [("id", .int block.id), ("num_bytes", .int block.bytes),
    ("generation_stamp", .int block.stamp)]

def Block.fieldNames : List String := ["id", "num_bytes", "generation_stamp"]

def Block.ofFields? (fields : Fields) : Option Block := do
  let id ← fields.nat? maxLong "id"
  let bytes ← fields.nat? maxLong "num_bytes"
  let stamp ← fields.nat? maxLong "generation_stamp"
  pure { id, bytes, stamp }

namespace Edit

/-- The word that says which edit the fields are of. -/
def tag : Edit → String
  | .mkdirs .. => "mkdirs"
  | .create .. => "create"
  | .symlink .. => "symlink"
  | .addBlock .. => "add_block"
  | .abandonBlock .. => "abandon_block"
  | .complete .. => "complete"
  | .append .. => "append"
  | .writeInline .. => "write_inline"
  | .truncate .. => "truncate"
  | .delete .. => "delete"
  | .rename .. => "rename"
  | .setQuota .. => "set_quota"
  | .setTypeQuota .. => "set_quota_by_storage_type"
  | .setPolicy .. => "set_storage_policy"
  | .setReplication .. => "set_replication"

/-- The fields beside the tag. -/
def arguments : Edit → Fields
  | .mkdirs path permission =>
    [("path", .text path), ("permission", .table .header permission.toFields)]
  | .create path permission replication blockSize writer overwrite =>
    [("path", .text path), ("permission", .table .header permission.toFields),
      ("replication", .int replication), ("block_size", .int blockSize),
      ("client_name", .text writer.client),
      ("client_machine", .text writer.machine), ("overwrite", .bool overwrite)]
  | .symlink target link permission createParent => [("target", .text target),
    ("link", .text link), ("permission", .table .header permission.toFields),
    ("create_parent", .bool createParent)]
  | .addBlock path client block targets => [("path", .text path),
    ("client_name", .text client), ("block", .table .header block.toFields),
    ("targets", Value.ofTexts targets)]
  | .abandonBlock path client block => [("path", .text path),
    ("client_name", .text client), ("block_id", .int block)]
  | .complete path client lastLength => [("path", .text path),
    ("client_name", .text client), ("last_block_length", .int lastLength)]
  | .append path writer =>
    [("path", .text path), ("client_name", .text writer.client),
      ("client_machine", .text writer.machine)]
  | .writeInline path client length => [("path", .text path),
    ("client_name", .text client), ("length", .int length)]
  | .truncate path length => [("path", .text path), ("new_length", .int length)]
  | .delete path recursive =>
    [("path", .text path), ("recursive", .bool recursive)]
  | .rename source destination =>
    [("src", .text source), ("dst", .text destination)]
  | .setQuota path inodes bytes => [("path", .text path),
    ("namespace", .int inodes), ("diskspace", .int bytes)]
  | .setTypeQuota path type limit => [("path", .text path),
    ("storage_type", .text type.name), ("limit", .int limit)]
  | .setPolicy path policy =>
    [("path", .text path), ("policy", .text policy.name)]
  | .setReplication path replication =>
    [("path", .text path), ("replication", .int replication)]

def toFields (edit : Edit) : Fields :=
  ("op", .text edit.tag) :: edit.arguments

/-- The writer that two fields name. -/
def writer? (fields : Fields) : Option Writer := do
  let client ← fields.text? "client_name"
  let machine ← fields.text? "client_machine"
  pure { client, machine }

def permission? (fields : Fields) : Option Permission :=
  (fields.record? Permission.fieldNames "permission").bind Permission.ofFields?

def block? (fields : Fields) : Option Block :=
  (fields.record? Block.fieldNames "block").bind Block.ofFields?

/-- The edit of a tag, if all its fields are there. -/
def ofArguments? (tag : String) (fields : Fields) : Option Edit :=
  match tag with
  | "mkdirs" => do
    pure (.mkdirs (← fields.text? "path") (← permission? fields))
  | "create" => do
    pure (.create (← fields.text? "path") (← permission? fields) (← fields.nat?
      maxShort "replication") (← fields.nat? maxLong "block_size")
        (← writer? fields) (← fields.bool? "overwrite"))
  | "symlink" => do
    pure (.symlink (← fields.text? "target") (← fields.text? "link")
      (← permission? fields) (← fields.bool? "create_parent"))
  | "add_block" => do
    pure (.addBlock (← fields.text? "path") (← fields.text? "client_name")
      (← block? fields) (← fields.texts? "targets"))
  | "abandon_block" => do
    pure (.abandonBlock (← fields.text? "path") (← fields.text? "client_name")
      (← fields.nat? maxLong "block_id"))
  | "complete" => do
    pure (.complete (← fields.text? "path") (← fields.text? "client_name")
      (← fields.nat? maxLong "last_block_length"))
  | "append" => do
    pure (.append (← fields.text? "path") (← writer? fields))
  | "write_inline" => do
    pure (.writeInline (← fields.text? "path") (← fields.text? "client_name")
      (← fields.nat? maxLong "length"))
  | "truncate" => do
    pure (.truncate (← fields.text? "path") (← fields.int? "new_length"))
  | "delete" => do
    pure (.delete (← fields.text? "path") (← fields.bool? "recursive"))
  | "rename" => do
    pure (.rename (← fields.text? "src") (← fields.text? "dst"))
  | "set_quota" => do
    pure (.setQuota (← fields.text? "path") (← fields.int? "namespace")
      (← fields.int? "diskspace"))
  | "set_quota_by_storage_type" => do
    pure (.setTypeQuota (← fields.text? "path") (← (fields.word?
      "storage_type").bind StorageType.ofName?) (← fields.int? "limit"))
  | "set_storage_policy" => do
    pure (.setPolicy (← fields.text? "path")
      (← (fields.word? "policy").bind StoragePolicy.ofName?))
  | "set_replication" => do
    pure (.setReplication (← fields.text? "path")
      (← fields.nat? maxShort "replication"))
  | _ => none

/-- The edit that fields stand for. -/
def ofFields? (fields : Fields) : Option Edit := do
  let tag ← fields.text? "op"
  ofArguments? tag fields

/-- The names of the fields that belong to a tag, in their order. -/
def argumentNames : String → List String
  | "mkdirs" => ["path", "permission"]
  | "create" => ["path", "permission", "replication", "block_size",
    "client_name", "client_machine", "overwrite"]
  | "symlink" => ["target", "link", "permission", "create_parent"]
  | "add_block" => ["path", "client_name", "block", "targets"]
  | "abandon_block" => ["path", "client_name", "block_id"]
  | "complete" => ["path", "client_name", "last_block_length"]
  | "append" => ["path", "client_name", "client_machine"]
  | "write_inline" => ["path", "client_name", "length"]
  | "truncate" => ["path", "new_length"]
  | "delete" => ["path", "recursive"]
  | "rename" => ["src", "dst"]
  | "set_quota" => ["path", "namespace", "diskspace"]
  | "set_quota_by_storage_type" => ["path", "storage_type", "limit"]
  | "set_storage_policy" => ["path", "policy"]
  | "set_replication" => ["path", "replication"]
  | _ => []

theorem argumentNames_tag (edit : Edit) :
    argumentNames edit.tag = edit.arguments.map Prod.fst := by
  cases edit <;> rfl

/-- The edit that a value stands for, a table or an array that begins with the
tag. -/
def ofValue? : Value → Option Edit
  | .table _ fields => ofFields? fields
  | .array _ (.text tag :: items) =>
    ((Value.array false items).asRecord (argumentNames tag)).bind
      (ofArguments? tag)
  | _ => none

/-- The text of a log, unless a number in it is out of range. -/
def writeLog? (edits : List Edit) : Option String :=
  Document.writeElements "ops" (edits.map toFields)

/-- What is said of a log that cannot be written. -/
def unwritableLog : String := "couldn't serialize edit log"

/-- The edits of a document, in which the log may be missing. -/
def logOfFields? (fields : Fields) : Option (List Edit) :=
  match fields.find? "ops" with
  | none => some []
  | some value => value.asItems.bind fun items => items.mapM ofValue?

/-- Read a log. -/
def readLog? (text : String) : Option (List Edit) :=
  (Document.read text).bind logOfFields?

end Edit

namespace EditFieldsExamples

example :
    Edit.ofFields? (Edit.toFields (.rename "/a" "/b")) =
      some (.rename "/a" "/b") := by
  decide +kernel
example :
    Edit.ofValue? (.array false [.text "rename", .text "/a", .text "/b"]) =
      some (.rename "/a" "/b") := by decide +kernel
example : Edit.ofValue? (.array false [.text "rename", .text "/a"]) = none := by
  decide +kernel
example : Edit.writeLog? [] = some "ops = []\n" := by decide +kernel
example : Edit.writeLog? [.complete "/f" "c" 9223372036854775808] = none := by
  decide +kernel
example : Edit.readLog? "[[ops]]\nop = \"rename\"\nsrc = \"/a\"\n" = none := by
  decide +kernel

end EditFieldsExamples

end QuotaTree
