import Std.Data.ExtTreeMap
import Std.Data.ExtTreeSet
import ShardLedger.Digest.Blake3

/-!
# Identities

Blocks and content items are named by digests. The two kinds of name are kept apart as types, and
both are ordered as their digests are, so that a map keyed by them is scanned in the same order
wherever it was built. Maps and sets are extensional: two that answer alike are equal.
-/

namespace ShardLedger

/-- The identity of a block. -/
structure BlockId where
  digest : Digest
deriving DecidableEq, Inhabited

/-- The identity of a content item. -/
structure ContentId where
  digest : Digest
deriving DecidableEq, Inhabited

namespace BlockId

/-- Blocks are ordered by their digests. -/
instance : Ord BlockId := ⟨compareOn BlockId.digest⟩

instance : Std.TransOrd BlockId := inferInstanceAs (Std.TransCmp (compareOn BlockId.digest))

instance : Std.LawfulEqOrd BlockId where
  eq_of_compare {a b} h := by
    have h : a.digest = b.digest := Std.LawfulEqOrd.eq_of_compare (α := Digest) h
    cases a; cases b; simp_all

/-- The identity that a label stands for. -/
def ofLabel (label : String) : BlockId := ⟨Digest.ofText label⟩

/-- How texts for people name the block. -/
def short (id : BlockId) : String := id.digest.short

/-- The name with its kind. -/
def describe (id : BlockId) : String := s!"BlockId({id.short})"

end BlockId

namespace ContentId

/-- Content items are ordered by their digests. -/
instance : Ord ContentId := ⟨compareOn ContentId.digest⟩

instance : Std.TransOrd ContentId := inferInstanceAs (Std.TransCmp (compareOn ContentId.digest))

instance : Std.LawfulEqOrd ContentId where
  eq_of_compare {a b} h := by
    have h : a.digest = b.digest := Std.LawfulEqOrd.eq_of_compare (α := Digest) h
    cases a; cases b; simp_all

/-- The identity that a label stands for. -/
def ofLabel (label : String) : ContentId := ⟨Digest.ofText label⟩

/-- How texts for people name the item. -/
def short (id : ContentId) : String := id.digest.short

/-- The name with its kind. -/
def describe (id : ContentId) : String := s!"ContentId({id.short})"

end ContentId

/-- A map keyed by blocks, scanned in the order of the blocks. -/
abbrev BlockMap (α : Type) := Std.ExtTreeMap BlockId α

/-- A set of blocks. -/
abbrev BlockSet := Std.ExtTreeSet BlockId

/-- A set of content items. -/
abbrev ContentSet := Std.ExtTreeSet ContentId

end ShardLedger
