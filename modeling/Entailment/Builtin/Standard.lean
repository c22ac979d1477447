import Entailment.Builtin.Action
import Entailment.Builtin.Arithmetic
import Entailment.Builtin.Chain
import Entailment.Builtin.Comparison
import Entailment.Builtin.Text

/-!
# The standard builtins
-/

namespace Entailment

namespace Builtin

def standard : List Builtin :=
  comparisons ++ arithmetics ++ kindTests ++ texts ++ chains ++ actions

end Builtin

def Registry.standard : Registry := .ofBuiltins Builtin.standard

end Entailment
