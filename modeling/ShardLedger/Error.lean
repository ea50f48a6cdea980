import ShardLedger.Id
import ShardLedger.Chain.Id

/-!
# Errors

The ways in which a query or a configuration can be refused. Each cause belongs to one stable
code, and a code has a summary and, for most, a hint. Blocks that are turned away are not errors;
they are outcomes of a submission.
-/

namespace ShardLedger

/-- The stable class of an error. -/
inductive ErrorCode where
  | configInvalid
  | configParseError
  | blockNotFound
  | chainNotFound
  | invalidArgument
  | maskExhausted
deriving DecidableEq, Inhabited

namespace ErrorCode

/-- The code as a text. -/
def text : ErrorCode → String
  | configInvalid => "E1001"
  | configParseError => "E1002"
  | blockNotFound => "E2001"
  | chainNotFound => "E2002"
  | invalidArgument => "E2003"
  | maskExhausted => "E3001"

/-- The name of the code. -/
def name : ErrorCode → String
  | configInvalid => "ConfigInvalid"
  | configParseError => "ConfigParseError"
  | blockNotFound => "BlockNotFound"
  | chainNotFound => "ChainNotFound"
  | invalidArgument => "InvalidArgument"
  | maskExhausted => "MaskExhausted"

/-- What happened, in a few words. -/
def summary : ErrorCode → String
  | configInvalid => "Ledger configuration rejected"
  | configParseError => "Config file parse error"
  | blockNotFound => "Block not found"
  | chainNotFound => "Chain not found"
  | invalidArgument => "Invalid argument"
  | maskExhausted => "Routing mask exhausted"

/-- What to do about it, where something can be said. -/
def hint? : ErrorCode → Option String
  | configInvalid => some "Check finalized_weight >= 1 and min_num_chains <= max_num_chains."
  | configParseError => some "Fix syntax in ledger.toml and retry."
  | blockNotFound =>
    some "The block is unknown, already finalized out of the live graph, or pruned."
  | chainNotFound => some "The chain was never spawned or has been merged away."
  | invalidArgument => none
  | maskExhausted => some "Lower tree.max_mask_depth below the fingerprint width."

end ErrorCode

/-- Why an argument is refused. -/
inductive BadArgument where
  /-- A fork graph needs a finalization weight of at least one. -/
  | noFinalizedWeight
  /-- A block is added a second time. -/
  | alreadyLive (id : BlockId)
  /-- A number of hops is negative. -/
  | negativeDistance (given : Int)
  /-- A number of steps back is negative. -/
  | negativeDepth (given : Int)
  /-- A reason that a caller words. -/
  | other (reason : String)
deriving DecidableEq

/-- The reason in words. -/
def BadArgument.text : BadArgument → String
  | noFinalizedWeight => "finalized_weight must be at least 1"
  | alreadyLive id => s!"block {id.short} is already in the fork graph"
  | negativeDistance given => s!"distance must be >= 0, got {given}"
  | negativeDepth given => s!"depth must be >= 0, got {given}"
  | other reason => reason

/-- Why a configuration is refused. -/
inductive BadConfig where
  | noFinalizedWeight
  | noChains
  /-- More chains are asked for than are allowed. -/
  | minExceedsMax (min max : Nat)
  /-- Chain numbers or fingerprints have fewer bits than splits are allowed. -/
  | tooDeep (depth limit : Nat)
  /-- The reserve is not below the batch size. -/
  | noBatchRoom
  /-- A reason that a caller words. -/
  | other (reason : String)
deriving DecidableEq

/-- The reason in words. -/
def BadConfig.text : BadConfig → String
  | noFinalizedWeight => "fork.finalized_weight must be at least 1"
  | noChains => "tree.min_num_chains must be at least 1 (the root)"
  | minExceedsMax min max => s!"tree.min_num_chains ({min}) exceeds tree.max_num_chains ({max})"
  | tooDeep depth limit => s!"tree.max_mask_depth ({depth}) exceeds {limit}"
  | noBatchRoom => "content.safety_offset must be below content.max_batch_size"
  | other reason => reason

/-- Why a request is refused. -/
inductive LedgerError where
  | blockNotFound (id : BlockId)
  | chainNotFound (id : ChainId)
  | invalidArgument (reason : BadArgument)
  | invalidConfig (reason : BadConfig)
  /-- A configuration text cannot be read. -/
  | configParse (reason : String)
  | maskExhausted (depth : Nat)
deriving DecidableEq

namespace LedgerError

/-- The class of an error. -/
def code : LedgerError → ErrorCode
  | blockNotFound _ => .blockNotFound
  | chainNotFound _ => .chainNotFound
  | invalidArgument _ => .invalidArgument
  | invalidConfig _ => .configInvalid
  | configParse _ => .configParseError
  | maskExhausted _ => .maskExhausted

/-- The error without its code. -/
def detail : LedgerError → String
  | blockNotFound id => s!"block {id.short} is not a live node"
  | chainNotFound id => s!"chain {id.number} is not registered"
  | invalidArgument reason => reason.text
  | invalidConfig reason => reason.text
  | configParse reason => reason
  | maskExhausted depth => s!"cursor cannot advance past bit {depth}"

/-- The full text: the code, then the detail. -/
def message (e : LedgerError) : String := s!"{e.code.text}: {e.detail}"

end LedgerError

end ShardLedger
