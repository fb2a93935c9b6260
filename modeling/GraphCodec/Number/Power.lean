/-!
# Powers

A power is that of the core library wherever it is written here. Without this its meaning would
depend on the algebraic structures that a module happens to import.
-/

namespace GraphCodec

attribute [scoped instance (high)] instPowNat

attribute [default_instance 20000] instPowNat

end GraphCodec
