import Entailment.Backward.Solver
import Entailment.Binding.Trail
import Entailment.Binding.Unifier
import Entailment.Builtin.Probe
import Entailment.Builtin.Standard
import Entailment.Config
import Entailment.Derivation.Export
import Entailment.Forward.Run
import Entailment.Proofs.Backward.Answers
import Entailment.Proofs.Backward.Backtracking
import Entailment.Proofs.Backward.Body
import Entailment.Proofs.Backward.Depth
import Entailment.Proofs.Backward.Exactness
import Entailment.Proofs.Backward.Generality
import Entailment.Proofs.Backward.Head
import Entailment.Proofs.Backward.InPlace
import Entailment.Proofs.Backward.Outcome
import Entailment.Proofs.Backward.Pertinence
import Entailment.Proofs.Backward.Restoration
import Entailment.Proofs.Backward.Search
import Entailment.Proofs.Builtin.Arithmetic
import Entailment.Proofs.Builtin.Binding
import Entailment.Proofs.Builtin.Chain
import Entailment.Proofs.Builtin.Coherence
import Entailment.Proofs.Builtin.Delay
import Entailment.Proofs.Builtin.Flatness
import Entailment.Proofs.Builtin.Independence
import Entailment.Proofs.Builtin.Keeping
import Entailment.Proofs.Builtin.Locality
import Entailment.Proofs.Builtin.Naming
import Entailment.Proofs.Builtin.Negation
import Entailment.Proofs.Builtin.Reliance
import Entailment.Proofs.Builtin.Steadiness
import Entailment.Proofs.Builtin.Tests
import Entailment.Proofs.Collection.Lookup
import Entailment.Proofs.Collection.Occurrence
import Entailment.Proofs.Collection.Reachability
import Entailment.Proofs.Collection.Recoding
import Entailment.Proofs.Derivation.Export
import Entailment.Proofs.Derivation.Outline
import Entailment.Proofs.Derivation.Recording
import Entailment.Proofs.Derivation.Verification
import Entailment.Proofs.Forward.Ability
import Entailment.Proofs.Forward.Accounts
import Entailment.Proofs.Forward.Activation
import Entailment.Proofs.Forward.Adoption
import Entailment.Proofs.Forward.Atomicity
import Entailment.Proofs.Forward.Attribution
import Entailment.Proofs.Forward.Books
import Entailment.Proofs.Forward.Closure
import Entailment.Proofs.Forward.Commitment
import Entailment.Proofs.Forward.Completion
import Entailment.Proofs.Forward.Concealment
import Entailment.Proofs.Forward.Consistency
import Entailment.Proofs.Forward.Delay
import Entailment.Proofs.Forward.Diligence
import Entailment.Proofs.Forward.Endurance
import Entailment.Proofs.Forward.Exactness
import Entailment.Proofs.Forward.Extension
import Entailment.Proofs.Forward.Firing
import Entailment.Proofs.Forward.Flatness
import Entailment.Proofs.Forward.Forest
import Entailment.Proofs.Forward.Foundation
import Entailment.Proofs.Forward.Groundedness
import Entailment.Proofs.Forward.Grounding
import Entailment.Proofs.Forward.Hiding
import Entailment.Proofs.Forward.Imitation
import Entailment.Proofs.Forward.Indexing
import Entailment.Proofs.Forward.Inversion
import Entailment.Proofs.Forward.Lifetime
import Entailment.Proofs.Forward.Maintenance
import Entailment.Proofs.Forward.Matches
import Entailment.Proofs.Forward.Modesty
import Entailment.Proofs.Forward.Oblivion
import Entailment.Proofs.Forward.Operation
import Entailment.Proofs.Forward.Order
import Entailment.Proofs.Forward.Parallel
import Entailment.Proofs.Forward.Perseverance
import Entailment.Proofs.Forward.ProofSearch
import Entailment.Proofs.Forward.Prudence
import Entailment.Proofs.Forward.Receding
import Entailment.Proofs.Forward.Reconsideration
import Entailment.Proofs.Forward.Recording
import Entailment.Proofs.Forward.Reliability
import Entailment.Proofs.Forward.Repetition
import Entailment.Proofs.Forward.Request
import Entailment.Proofs.Forward.Run
import Entailment.Proofs.Forward.Severity
import Entailment.Proofs.Forward.Step
import Entailment.Proofs.Forward.Stock
import Entailment.Proofs.Forward.Subscription
import Entailment.Proofs.Forward.Tally
import Entailment.Proofs.Forward.Termination
import Entailment.Proofs.Forward.Thoroughness
import Entailment.Proofs.Forward.Upkeep
import Entailment.Proofs.Forward.Vigilance
import Entailment.Proofs.Forward.Work
import Entailment.Proofs.Graph.Delay
import Entailment.Proofs.Graph.Membership
import Entailment.Proofs.Graph.Memory
import Entailment.Proofs.Graph.Presence
import Entailment.Proofs.Graph.Refinement
import Entailment.Proofs.Graph.Scan
import Entailment.Proofs.Matching.Alias
import Entailment.Proofs.Matching.Delay
import Entailment.Proofs.Matching.Denotation
import Entailment.Proofs.Matching.Determinacy
import Entailment.Proofs.Matching.Ending
import Entailment.Proofs.Matching.Equations
import Entailment.Proofs.Matching.Filling
import Entailment.Proofs.Matching.Fit
import Entailment.Proofs.Matching.Ground
import Entailment.Proofs.Matching.Instantiation
import Entailment.Proofs.Matching.Likeness
import Entailment.Proofs.Matching.Placement
import Entailment.Proofs.Matching.Resolution
import Entailment.Proofs.Matching.Shape
import Entailment.Proofs.Matching.Unification
import Entailment.Proofs.Matching.Variance
import Entailment.Proofs.Reasoner.Agreement
import Entailment.Proofs.Reasoner.Deduplication
import Entailment.Proofs.Reasoner.Exchange
import Entailment.Proofs.Reasoner.Speculation
import Entailment.Proofs.Rule.Alteration
import Entailment.Proofs.Rule.Consequence
import Entailment.Proofs.Rule.Delay
import Entailment.Proofs.Rule.Enclosure
import Entailment.Proofs.Rule.Instance
import Entailment.Proofs.Rule.Renaming
import Entailment.Proofs.Rule.Shelter
import Entailment.Proofs.Rule.Similarity
import Entailment.Proofs.Rule.Valuation
import Entailment.Proofs.Rule.Variants
import Entailment.Proofs.Term.Delay
import Entailment.Proofs.Term.Equality
import Entailment.Proofs.Term.Hashing
import Entailment.Reasoner
import Entailment.Proofs.Forward.Continuance
