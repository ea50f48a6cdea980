import ShardLedger.Error
import ShardLedger.Content.Cursor
import ShardLedger.Document.Basic

/-!
# Configuration

The settings of a ledger in four sections. Every setting has a default, and `Config.validate`
refuses the combinations that a ledger cannot run with.

- `Config.validate`: the first problem of a configuration, if there is one.
- `Config.ofDocument?`, `Config.toDocument`: the settings as a structured document.
- `Config.describe`: the settings as one line.
-/

namespace ShardLedger

/-- When a chain finalizes. -/
structure ForkConfig where
  /-- The lead in weight that finalizes a block. -/
  finalizedWeight : Nat := 6
  /-- Whether every finalized block is recorded with its weight. -/
  recordHistory : Bool := false
deriving DecidableEq, Inhabited

/-- How far the tree of chains may grow and shrink. -/
structure TreeConfig where
  minChains : Nat := 1
  maxChains : Nat := 999
  /-- The deepest split level. -/
  maxDepth : Nat := 32
deriving DecidableEq, Inhabited

/-- How large a batch of content may be. -/
structure ContentConfig where
  maxBatchSize : Nat := 1048576
  /-- The space that a batch keeps free. -/
  reserve : Nat := 1024
deriving DecidableEq, Inhabited

/-- When a chain is offered to proposers. -/
structure PriorityConfig where
  /-- The finalized blocks that a young chain needs. -/
  minFinalizedBlocks : Nat := 1
deriving DecidableEq, Inhabited

/-- The settings of a ledger. -/
structure Config where
  fork : ForkConfig := {}
  tree : TreeConfig := {}
  content : ContentConfig := {}
  priority : PriorityConfig := {}
deriving DecidableEq, Inhabited

namespace Config

/-- The deepest split level that chain numbers and fingerprints have bits for. -/
def depthLimit : Nat := min maskBits 63

/-- The first reason to refuse a configuration. -/
def problem? (c : Config) : Option BadConfig :=
  if c.fork.finalizedWeight = 0 then some .noFinalizedWeight
  else if c.tree.minChains = 0 then some .noChains
  else if c.tree.maxChains < c.tree.minChains then
    some (.minExceedsMax c.tree.minChains c.tree.maxChains)
  else if depthLimit < c.tree.maxDepth then some (.tooDeep c.tree.maxDepth depthLimit)
  else if c.content.maxBatchSize ≤ c.content.reserve then some .noBatchRoom
  else none

/-- Refuse a configuration that a ledger cannot run with. -/
def validate (c : Config) : Except LedgerError Unit :=
  match c.problem? with
  | some problem => .error (.invalidConfig problem)
  | none => .ok ()

/-- A setting by its position in a section: the default where it is missing, nothing where it has
another kind. -/
def setting? (read : Document → Option α) (default : α) : Option Document → Option α
  | none => some default
  | some d => read d

/-- The fork section of a document. -/
def forkOf? (lenient : Bool) (d : Document) : Option ForkConfig := do
  match ← d.record? lenient ["finalized_weight", "record_history"] with
  | [weight, history] =>
    return { finalizedWeight := ← setting? Document.word? 6 weight
             recordHistory := ← setting? Document.flag? false history }
  | _ => none

/-- The tree section of a document. -/
def treeOf? (lenient : Bool) (d : Document) : Option TreeConfig := do
  match ← d.record? lenient ["min_num_chains", "max_num_chains", "max_mask_depth"] with
  | [least, most, depth] =>
    return { minChains := ← setting? Document.word? 1 least
             maxChains := ← setting? Document.word? 999 most
             maxDepth := ← setting? Document.word? 32 depth }
  | _ => none

/-- The content section of a document. -/
def contentOf? (lenient : Bool) (d : Document) : Option ContentConfig := do
  match ← d.record? lenient ["max_batch_size", "safety_offset"] with
  | [size, reserve] =>
    return { maxBatchSize := ← setting? Document.word? 1048576 size
             reserve := ← setting? Document.word? 1024 reserve }
  | _ => none

/-- The priority section of a document. -/
def priorityOf? (lenient : Bool) (d : Document) : Option PriorityConfig := do
  match ← d.record? lenient ["min_finalized_blocks"] with
  | [blocks] => return { minFinalizedBlocks := ← setting? Document.word? 1 blocks }
  | _ => none

/-- The settings that a document gives; what it does not mention keeps its default. Lists longer
than their section are accepted only if `lenient`. -/
def ofDocument? (lenient : Bool) (d : Document) : Option Config := do
  match ← d.record? lenient ["fork", "tree", "content", "priority"] with
  | [fork, tree, content, priority] =>
    return { fork := ← setting? (forkOf? lenient) {} fork
             tree := ← setting? (treeOf? lenient) {} tree
             content := ← setting? (contentOf? lenient) {} content
             priority := ← setting? (priorityOf? lenient) {} priority }
  | _ => none

/-- The settings as a document, all of them written out. -/
def toDocument (c : Config) : Document :=
  .table
    [("fork", .table
       [("finalized_weight", .nat c.fork.finalizedWeight),
        ("record_history", .flag c.fork.recordHistory)]),
     ("tree", .table
       [("min_num_chains", .nat c.tree.minChains),
        ("max_num_chains", .nat c.tree.maxChains),
        ("max_mask_depth", .nat c.tree.maxDepth)]),
     ("content", .table
       [("max_batch_size", .nat c.content.maxBatchSize),
        ("safety_offset", .nat c.content.reserve)]),
     ("priority", .table [("min_finalized_blocks", .nat c.priority.minFinalizedBlocks)])]

/-- The settings as one line, by section and name. -/
def describe (c : Config) : String :=
  let record (name : String) (fields : List (String × String)) : String :=
    let body := ", ".intercalate (fields.map fun (field, value) => s!"{field}: {value}")
    s!"{name} \x7b {body} \x7d"
  record "LedgerConfig"
    [("fork", record "ForkConfig"
       [("finalized_weight", toString c.fork.finalizedWeight),
        ("record_history", toString c.fork.recordHistory)]),
     ("tree", record "TreeConfig"
       [("min_num_chains", toString c.tree.minChains),
        ("max_num_chains", toString c.tree.maxChains),
        ("max_mask_depth", toString c.tree.maxDepth)]),
     ("content", record "ContentConfig"
       [("max_batch_size", toString c.content.maxBatchSize),
        ("safety_offset", toString c.content.reserve)]),
     ("priority", record "PriorityConfig"
       [("min_finalized_blocks", toString c.priority.minFinalizedBlocks)])]

end Config

end ShardLedger
