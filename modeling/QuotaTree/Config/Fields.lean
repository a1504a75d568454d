/-
Settings as fields of a document.  A setting that is missing has its default; a
field that is no setting is an error.
-/
import QuotaTree.Config
import QuotaTree.Document.Reader

namespace QuotaTree

open Document (Value Fields maxShort maxLong)

namespace Config

/-- Change the setting that a field is for. -/
def withField (config : Config) (key : String) (value : Value) :
    Option Config :=
  match key with
  | "quota_enabled" => do pure { config with quotaEnabled := ← value.asBool }
  | "max_component_length" =>
    do pure { config with maxNameLength := ← value.asNat maxLong }
  | "max_dir_items" =>
    do pure { config with maxEntries := ← value.asNat maxLong }
  | "quota_update_interval_ms" =>
    do pure { config with mergeInterval := ← value.asNat maxLong }
  | "content_count_limit" =>
    do pure { config with summaryBatch := ← value.asNat maxLong }
  | "small_file_max_size" =>
    do pure { config with maxInline := ← value.asNat maxLong }
  | "lock_retries" =>
    do pure { config with lockRetries := ← value.asNat maxLong }
  | "default_replication" =>
    do pure { config with defaultReplication := ← value.asNat maxShort }
  | "default_block_size" =>
    do pure { config with defaultBlockSize := ← value.asNat maxLong }
  | _ => none

def ofFields? (fields : Fields) : Option Config :=
  fields.foldlM (fun config field => config.withField field.1 field.2) {}

def toFields (config : Config) : Fields :=
  [("quota_enabled", .bool config.quotaEnabled),
    ("max_component_length", .int config.maxNameLength),
    ("max_dir_items", .int config.maxEntries),
    ("quota_update_interval_ms", .int config.mergeInterval),
    ("content_count_limit", .int config.summaryBatch),
    ("small_file_max_size", .int config.maxInline),
    ("lock_retries", .int config.lockRetries),
    ("default_replication", .int config.defaultReplication),
    ("default_block_size", .int config.defaultBlockSize)]

/-- The settings that a value stands for.  An array gives them by position and
may end early. -/
def ofValue? : Value → Option Config
  | .table _ fields => ofFields? fields
  | .array _ items =>
    let names := ({} : Config).toFields.map Prod.fst
    if items.length ≤ names.length then ofFields? (names.zip items) else none
  | _ => none

/-- Read settings. -/
def read? (text : String) : Option Config :=
  (Document.read text).bind ofFields?

end Config

namespace ConfigFieldsExamples

example : Config.ofFields? (({} : Config).toFields) = some {} := by
  decide +kernel
example : Config.read? "max_dir_items = 8 # few\r\nquota_enabled = false" =
    some { maxEntries := 8, quotaEnabled := false } := by decide +kernel
example : Config.read? "lock_retries = 007\n" = none := by decide +kernel
example : Config.read? "lock_retries = 7 # \x7f\n" = none := by decide +kernel
example : Config.ofValue? (.array false [.bool false, .int 3]) =
    some { quotaEnabled := false, maxNameLength := 3 } := by decide +kernel
example : Config.read? "quota_enabled = 1\n" = none := by decide +kernel

end ConfigFieldsExamples

end QuotaTree
