/-!
# Depth-first descent

`descend next domain pending` lists the members of a finite domain that can be
reached from the pending ones, each once.  The last of what is pending comes first,
and what follows a member comes before all that was pending with it.
-/

namespace Entailment

/-- Descends over at most so many members, with the pending ones in the order in which
they are taken. -/
def descendWithin {α : Type} [DecidableEq α] (next : α → List α) :
    Nat → List α → List α → List α
  | 0, _, _ => []
  | bound + 1, domain, pending =>
    match pending.dropWhile (· ∉ domain) with
    | [] => []
    | a :: rest => a :: descendWithin next bound (domain.erase a) ((next a).reverse ++ rest)

def descend {α : Type} [DecidableEq α] (next : α → List α) (domain pending : List α) : List α :=
  descendWithin next domain.length domain pending.reverse

end Entailment
