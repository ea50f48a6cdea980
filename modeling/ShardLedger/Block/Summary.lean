import ShardLedger.Block.Basic
import ShardLedger.Content.Store
import ShardLedger.Document.Basic

/-!
# Summaries of blocks

The forms in which identities, blocks, content items, cursors and errors are shown. Identities are
hexadecimal texts, and ranks and references are short lists. The record form of a block, from which
it can be read again, is another one.
-/

namespace ShardLedger

/-- A block's identity in hexadecimal. -/
def BlockId.summary (id : BlockId) : Document := .text id.digest.hex

/-- A content item's identity in hexadecimal. -/
def ContentId.summary (id : ContentId) : Document := .text id.digest.hex

/-- The written forms of a block's identity. -/
def BlockId.forms (id : BlockId) : Document :=
  .list [id.summary, .text id.short, .text id.describe]

/-- The written forms of a content item's identity. -/
def ContentId.forms (id : ContentId) : Document :=
  .list [id.summary, .text id.short, .text id.describe]

/-- A chain's number. -/
def ChainId.summary (c : ChainId) : Document := .nat c.number

/-- A chain's number, its written forms, and where the chain stands. -/
def ChainId.details (c : ChainId) : Document :=
  .table
    [("raw", c.summary), ("display", .text c.text), ("debug", .text c.describe),
     ("root", .flag c.isRoot), ("depth", .nat c.depth),
     ("parent", .optional ChainId.summary c.parent?),
     ("left", .optional ChainId.summary (c.child? .left)),
     ("right", .optional ChainId.summary (c.child? .right))]

/-- The two ranks of a pair. -/
def Rank.summary (r : Rank) : Document := .list [.word r.current, .word r.next]

/-- Two pairs side by side: whether each is ordered, how they compare, and the first one in words. -/
def Rank.comparison (a b : Rank) : Document :=
  let order := match compare a b with
    | .lt => "Less"
    | .eq => "Equal"
    | .gt => "Greater"
  .table
    [("a_ordered", .flag a.isOrdered), ("b_ordered", .flag b.isOrdered), ("cmp", .text order),
     ("debug", .text a.describe)]

/-- An item and its size. -/
def ContentRef.summary (r : ContentRef) : Document := .list [r.id.summary, .word r.size]

/-- A block by its fields and its parent. -/
def Block.summary (b : Block) : Document :=
  .table
    [("id", b.id.summary), ("previous", .each BlockId.summary b.previous),
     ("parent", .optional BlockId.summary b.parent?), ("chain", b.chain.summary),
     ("content", .each ContentRef.summary b.content), ("weight", .word b.weight),
     ("rank", b.rank.summary), ("proposer", .text b.proposer)]

/-- A content item by its identity, its size and its two fingerprints. -/
def ContentItem.summary (item : ContentItem) : Document :=
  .table
    [("id", item.id.summary), ("size", .word item.size),
     ("fp", .list [.text item.first.digest.hex, .text item.second.digest.hex])]

/-- A cursor by its depth, its byte and its bit in that byte. -/
def Cursor.summary (c : Cursor) : Document :=
  .table [("depth", .nat c.depth), ("byte", .nat c.byteIndex), ("bit", .nat c.bitOffset)]

/-- The kind of an error. -/
def LedgerError.kind : LedgerError → String
  | .invalidConfig _ => "InvalidConfig"
  | .configParse _ => "ConfigParse"
  | e => e.code.name

/-- An error by its kind, its code and its text. Why a configuration text cannot be read is not
told. -/
def LedgerError.fields (e : LedgerError) : List (String × Document) :=
  [("error", .text e.kind), ("code", .text e.code.text)]
    ++ match e with
      | .configParse _ => []
      | _ => [("message", .text e.message)]

/-- An error by its texts and its code. -/
def LedgerError.summary (e : LedgerError) : Document :=
  .table
    [("display", .text e.message), ("code", .text e.code.text), ("summary", .text e.code.summary),
     ("hint", .optional .text e.code.hint?), ("debug", .text e.code.name)]

end ShardLedger
