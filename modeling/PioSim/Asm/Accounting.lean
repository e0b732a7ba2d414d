import PioSim.Asm.Lines

/-!
# The tokens of an instruction line

A physical line is read as far as the buffer goes, and the instruction behind its label is taken
apart into tokens. Of a source that assembles, the lines all of whose tokens are read and have their
place are told apart from those with a token that is ignored.
-/

namespace PioSim.Asm

section Version
variable [Platform]

namespace ParseState

variable {t : Table} {p : Program} {ps : ParseState}

end ParseState

/-! ### The instruction lines of a source -/

open ParseState

end Version

end PioSim.Asm
