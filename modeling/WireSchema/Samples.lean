import WireSchema.Schema.Basic
import WireSchema.WriteOptions

/-!
Sample schemas by name, for writing with their options and for reading.
-/

set_option autoImplicit false

namespace WireSchema.Samples

structure Sample where
  name : String
  schema : Schema
  options : WriteOptions

def user : Schema :=
  .ofFields [("id", .leaf .number), ("username", .option (.leaf .string)),
    ("createdAt", .leaf (.temporal .instant)), ("value", .leaf .u64)]

def shape : Schema :=
  .ofVariants [("circle", some (.ofFields [("radius", .leaf .number)])), ("point", none),
    ("label", some (.leaf .string)), ("pair", some (.tuple [.leaf .u64, .leaf .bool]))]

def written : List Sample :=
  [⟨"user", user, { WriteOptions.off with cow := true }⟩,
    ⟨"user_copy", user, .off⟩,
    ⟨"shape", shape, .off⟩,
    ⟨"shape_lenient", shape, { WriteOptions.off with choiceFallthrough := true }⟩,
    ⟨"tags", .array (.option (.leaf .i64)), { WriteOptions.off with cow := true }⟩,
    ⟨"flags", .ofFields [("on", .leaf .bool), ("name", .leaf .string)], .off⟩,
    ⟨"timeline", .array (.ofFields [("at", .leaf .date), ("note", .leaf .string)]),
      { WriteOptions.off with dateTimePassthrough := true }⟩]

def readers : List (String × Schema) :=
  [("pair", .tuple [.leaf .u32, .array (.leaf .string), .option (.leaf .bigint)]),
    ("when", .leaf .date),
    ("moments", .array (.leaf (.temporal .plainDate)))]

def written? (name : String) : Option Sample :=
  written.find? fun sample => sample.name = name

def reader? (name : String) : Option Schema :=
  Entries.get? name readers

end WireSchema.Samples
