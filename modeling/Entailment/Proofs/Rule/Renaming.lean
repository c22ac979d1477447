import Entailment.Proofs.Matching.Fit
import Entailment.Proofs.Matching.Placement
import Entailment.Rule.Basic

/-!
# What numbering makes of clauses

Numbering is a renaming: each variable gets the place of its name in one list of names,
which is the same for the body and the head of a rule.  A renamed pattern fits what the
pattern fits, under assignments that correspond.  A rule numbers its variables below the
number of its slots, in the order in which their names occur first, and reads nothing but
names, so that a rule that has been turned round and back is the rule that it was.
-/

namespace Entailment

/-! ## Renamed clauses -/

mutual
/-- A renaming keeps what fits, under assignments that correspond. -/
theorem Node.fits_subst_iff {f : Var → Var} {σ τ : Assignment} {p n : Node}
    (h : ∀ v ∈ p.vars, (σ (f v).index == τ v.index) = true) :
    (p.subst fun v => .var (f v)).Fits σ n ↔ p.Fits τ n := by
  match p, n with
  | .var v, n =>
      change (σ (f v).index == n) = true ↔ (τ v.index == n) = true
      rw [BEq.congr_left (h v (List.mem_singleton.2 rfl))]
  | .functor g ps, .functor k ns => exact and_congr_right fun _ => Node.allFit_subst_iff h
  | .functor g ps, .uri _ | .functor g ps, .literal _ | .functor g ps, .blank _
  | .functor g ps, .var _ | .functor g ps, .any => exact Iff.rfl
  | .uri _, _ | .literal _, _ | .blank _, _ | .any, _ => exact Iff.rfl

theorem Node.allFit_subst_iff {f : Var → Var} {σ τ : Assignment} {ps ns : List Node}
    (h : ∀ v ∈ Node.varsAll ps, (σ (f v).index == τ v.index) = true) :
    Node.AllFit σ (Node.substAll (fun v => .var (f v)) ps) ns ↔ Node.AllFit τ ps ns := by
  match ps, ns with
  | [], [] => exact Iff.rfl
  | [], _ :: _ => exact Iff.rfl
  | p :: ps, [] => exact Iff.rfl
  | p :: ps, n :: ns =>
      rw [Node.varsAll] at h
      exact and_congr (Node.fits_subst_iff fun v hv => h v (List.mem_append_left _ hv))
        (Node.allFit_subst_iff fun v hv => h v (List.mem_append_right _ hv))
end

mutual
theorem Node.vars_subst (f : Var → Var) (n : Node) :
    (n.subst fun v => .var (f v)).vars = n.vars.map f := by
  cases n with
  | functor g args => exact Node.varsAll_subst f args
  | _ => rfl

theorem Node.varsAll_subst (f : Var → Var) (ns : List Node) :
    Node.varsAll (Node.substAll (fun v => .var (f v)) ns) = (Node.varsAll ns).map f := by
  match ns with
  | [] => rfl
  | n :: ns =>
      rw [Node.substAll, Node.varsAll, Node.varsAll, List.map_append, Node.vars_subst f n,
        Node.varsAll_subst f ns]
end

mutual
theorem Node.renamed_renamed (f g : Var → Var) (n : Node) :
    (n.subst fun v => .var (f v)).subst (fun v => .var (g v)) = n.subst fun v => .var (g (f v)) := by
  cases n with
  | functor h args => exact congrArg (Node.functor h) (Node.renamedAll_renamedAll f g args)
  | _ => rfl

theorem Node.renamedAll_renamedAll (f g : Var → Var) (ns : List Node) :
    Node.substAll (fun v => .var (g v)) (Node.substAll (fun v => .var (f v)) ns) =
      Node.substAll (fun v => .var (g (f v))) ns := by
  match ns with
  | [] => rfl
  | n :: ns =>
      exact congrArg₂ List.cons (Node.renamed_renamed f g n) (Node.renamedAll_renamedAll f g ns)
end

mutual
/-- A renaming that leaves all variables of a node alone leaves it as it is. -/
theorem Node.renamed_eq_self {f : Var → Var} {n : Node} (h : ∀ v ∈ n.vars, f v = v) :
    (n.subst fun v => .var (f v)) = n := by
  cases n with
  | var v => exact congrArg Node.var (h v (List.mem_singleton.2 rfl))
  | functor g args => exact congrArg (Node.functor g) (Node.renamedAll_eq_self h)
  | _ => rfl

theorem Node.renamedAll_eq_self {f : Var → Var} {ns : List Node}
    (h : ∀ v ∈ Node.varsAll ns, f v = v) : Node.substAll (fun v => .var (f v)) ns = ns := by
  match ns with
  | [] => rfl
  | n :: ns =>
      rw [Node.varsAll] at h
      exact congrArg₂ List.cons (Node.renamed_eq_self fun v hv => h v (List.mem_append_left _ hv))
        (Node.renamedAll_eq_self fun v hv => h v (List.mem_append_right _ hv))
end

namespace Triple

theorem renamed_renamed (f g : Var → Var) (t : Triple) :
    (t.renamed f).renamed g = t.renamed fun v => g (f v) := by
  simp [renamed, map, Node.renamed_renamed]

theorem renamed_eq_self {f : Var → Var} {t : Triple} (h : ∀ v ∈ t.vars, f v = v) :
    t.renamed f = t := by
  simp only [vars, List.mem_append] at h
  have hs := Node.renamed_eq_self fun v hv => h v (Or.inl (Or.inl hv))
  have hp := Node.renamed_eq_self fun v hv => h v (Or.inl (Or.inr hv))
  have ho := Node.renamed_eq_self fun v hv => h v (Or.inr hv)
  simp only [renamed, map, hs, hp, ho]

theorem fits_renamed_iff {f : Var → Var} {σ τ : Assignment} {p t : Triple}
    (h : ∀ v ∈ p.vars, (σ (f v).index == τ v.index) = true) :
    (p.renamed f).Fits σ t ↔ p.Fits τ t := by
  simp only [vars, List.mem_append] at h
  have hs := Node.fits_subst_iff (n := t.subject) fun v hv => h v (Or.inl (Or.inl hv))
  have hp := Node.fits_subst_iff (n := t.predicate) fun v hv => h v (Or.inl (Or.inr hv))
  have ho := Node.fits_subst_iff (n := t.object) fun v hv => h v (Or.inr hv)
  exact ⟨fun h => ⟨hs.1 h.subject, hp.1 h.predicate, ho.1 h.object⟩,
    fun h => ⟨hs.2 h.subject, hp.2 h.predicate, ho.2 h.object⟩⟩

theorem vars_renamed (f : Var → Var) (t : Triple) : (t.renamed f).vars = t.vars.map f := by
  simp [vars, renamed, map, Node.vars_subst]

end Triple

/-- The call with its variables renamed. -/
def Call.renamed (f : Var → Var) (c : Call) : Call :=
  { c with args := Node.substAll (fun v => .var (f v)) c.args }

namespace Clause

def renamed (f : Var → Var) : Clause → Clause
  | .pattern t => .pattern (t.renamed f)
  | .call c => .call (c.renamed f)

theorem renamed_renamed (f g : Var → Var) (c : Clause) :
    (c.renamed f).renamed g = c.renamed fun v => g (f v) := by
  cases c with
  | pattern t => exact congrArg Clause.pattern (t.renamed_renamed f g)
  | call c =>
      exact congrArg (fun args => Clause.call { c with args })
        (Node.renamedAll_renamedAll f g c.args)

theorem vars_renamed (f : Var → Var) (c : Clause) : (c.renamed f).vars = c.vars.map f := by
  cases c with
  | pattern t => exact t.vars_renamed f
  | call c => exact Node.varsAll_subst f c.args

end Clause

/-! ## Numbering by names -/

namespace Numbering

/-- The variable with the place of its name. -/
def place (names : Numbering) (v : Var) : Var := ⟨v.name, names.idxOf v.name⟩

theorem placesBy_clause (names : Numbering) (c : Clause) :
    PlacesBy Var.name Var.name names (c.traverse number keepAny names).2 c.vars
      (c.traverse number keepAny names).1 fun image => c.renamed image := by
  cases c with
  | pattern t => exact (placesBy_triple Var.name Var.name names t).map Clause.pattern
  | call c =>
      exact (placesBy_traverseAll Var.name Var.name names c.args).map fun args =>
        Clause.call { c with args }

theorem placesBy_clauses (names : Numbering) (cs : List Clause) :
    PlacesBy Var.name Var.name names (traverseClauses number keepAny names cs).2
      (cs.flatMap Clause.vars) (traverseClauses number keepAny names cs).1
      fun image => cs.map (Clause.renamed image) := by
  induction cs generalizing names with
  | nil => exact .fixed names _
  | cons c cs ih =>
      rw [traverseClauses, List.flatMap_cons]
      exact (placesBy_clause names c).combine (ih _) List.cons

/-- Clauses that are numbered one after the other get the places in one list of names. -/
theorem traverseClauses_in_turn (cs ds : List Clause) :
    (traverseClauses number keepAny [] cs).1 =
        cs.map (Clause.renamed (place (((cs ++ ds).flatMap Clause.vars).map Var.name).eraseDups)) ∧
      traverseClauses number keepAny (traverseClauses number keepAny [] cs).2 ds =
        (ds.map (Clause.renamed (place (((cs ++ ds).flatMap Clause.vars).map Var.name).eraseDups)),
          (((cs ++ ds).flatMap Clause.vars).map Var.name).eraseDups) := by
  have hall := (placesBy_clauses [] cs).combine
    (placesBy_clauses (traverseClauses number keepAny [] cs).2 ds) Prod.mk
  rw [← List.flatMap_append] at hall
  have hnames := hall.met_eq.trans (metAfter_eraseDups [] _)
  have heq := hall.result_eq _ List.prefix_rfl
  rw [hnames, Prod.mk.injEq] at heq
  exact ⟨heq.1, Prod.ext heq.2 hnames⟩

theorem place_index_inj {names : Numbering} {v w : Var} (hv : v.name ∈ names)
    (h : (names.place v).index = (names.place w).index) : v.name = w.name :=
  (List.idxOf_inj hv).1 h

/-- The indexes of the variables of a clause. -/
def clauseIndexes (c : Clause) : List Nat := c.vars.map Var.index

end Numbering

namespace Rule

/-- The variables of all clauses in order of occurrence, repetitions included. -/
def vars (r : Rule) : List Var := r.clauses.flatMap Clause.vars

theorem mem_vars_of_body {r : Rule} {c : Clause} (hc : c ∈ r.body) {v : Var} (hv : v ∈ c.vars) :
    v ∈ r.vars :=
  List.mem_flatMap.2 ⟨c, List.mem_append_left _ hc, hv⟩

theorem mem_vars_of_head {r : Rule} {c : Clause} (hc : c ∈ r.head) {v : Var} (hv : v ∈ c.vars) :
    v ∈ r.vars :=
  List.mem_flatMap.2 ⟨c, List.mem_append_right _ hc, hv⟩

/-- The clause of a renamed list comes from one of the list. -/
theorem pattern_mem_renamed {cs : List Clause} {f : Var → Var} {p : Triple} :
    Clause.pattern p ∈ cs.map (Clause.renamed f) ↔
      ∃ q, Clause.pattern q ∈ cs ∧ q.renamed f = p := by
  rw [List.mem_map]
  constructor
  · rintro ⟨c, hc, heq⟩
    cases c with
    | pattern q => exact ⟨q, hc, Clause.pattern.inj heq⟩
    | call c => cases heq
  · rintro ⟨q, hq, rfl⟩
    exact ⟨_, hq, rfl⟩

theorem call_mem_renamed {cs : List Clause} {f : Var → Var} {c : Call} :
    Clause.call c ∈ cs.map (Clause.renamed f) ↔
      ∃ d, Clause.call d ∈ cs ∧ d.renamed f = c := by
  rw [List.mem_map]
  constructor
  · rintro ⟨d, hd, heq⟩
    cases d with
    | pattern q => cases heq
    | call d => exact ⟨d, hd, Clause.call.inj heq⟩
  · rintro ⟨d, hd, rfl⟩
    exact ⟨_, hd, rfl⟩

/-- The rule has its variables numbered. -/
def Made (r : Rule) : Prop := ∃ name body head direction, r = make name body head direction

/-- The variables of a body and a head in the order in which a rule numbers them. -/
def varsInOrder (direction : Direction) (body head : List Clause) : List Var :=
  match direction with
  | .forward => (body ++ head).flatMap Clause.vars
  | .backward => (head ++ body).flatMap Clause.vars

/-- The names of the variables in the order in which a rule numbers them. -/
def slotNames (direction : Direction) (body head : List Clause) : Numbering :=
  ((varsInOrder direction body head).map Var.name).eraseDups

/-- What making a rule comes to: every variable gets the place of its name. -/
theorem make_eq (name : Option String) (body head : List Clause) (direction : Direction) :
    make name body head direction =
      ⟨name, body.map (Clause.renamed (Numbering.place (slotNames direction body head))),
        head.map (Clause.renamed (Numbering.place (slotNames direction body head))),
        (slotNames direction body head).length, direction⟩ := by
  cases direction with
  | forward =>
      obtain ⟨hbody, hhead⟩ := Numbering.traverseClauses_in_turn body head
      simp only [make, hbody, hhead]
      rfl
  | backward =>
      obtain ⟨hhead, hbody⟩ := Numbering.traverseClauses_in_turn head body
      simp only [make, hbody, hhead]
      rfl

variable {r : Rule}

/-- The names of the variables in the order of their numbers. -/
def names (r : Rule) : Numbering := slotNames r.direction r.body r.head

theorem vars_renamedClauses (f : Var → Var) (cs : List Clause) :
    (cs.map (Clause.renamed f)).flatMap Clause.vars = (cs.flatMap Clause.vars).map f := by
  rw [List.flatMap_map, List.map_flatMap]
  exact congrArg (cs.flatMap ·) (funext fun c => c.vars_renamed f)

theorem varsInOrder_renamed (direction : Direction) (f : Var → Var) (body head : List Clause) :
    varsInOrder direction (body.map (Clause.renamed f)) (head.map (Clause.renamed f)) =
      (varsInOrder direction body head).map f := by
  cases direction <;> simp only [varsInOrder, ← List.map_append, vars_renamedClauses]

theorem mem_varsInOrder {direction : Direction} {v : Var} :
    v ∈ varsInOrder direction r.body r.head ↔ v ∈ r.vars := by
  cases direction <;> simp [varsInOrder, vars, clauses, or_comm]

/-- Only names are read of the variables. -/
theorem slotNames_renamed {f : Var → Var} (hf : ∀ v, (f v).name = v.name) (direction : Direction)
    (body head : List Clause) :
    slotNames direction (body.map (Clause.renamed f)) (head.map (Clause.renamed f)) =
      slotNames direction body head := by
  rw [slotNames, varsInOrder_renamed, List.map_map]
  exact congrArg List.eraseDups (List.map_congr_left fun v _ => hf v)

theorem name_mem_slotNames (direction : Direction) {v : Var} (hv : v ∈ r.vars) :
    v.name ∈ slotNames direction r.body r.head :=
  List.mem_eraseDups.2 (List.mem_map_of_mem (mem_varsInOrder.2 hv))

theorem Made.numbered (h : r.Made) : r.numVars = r.names.length ∧
    ∀ v ∈ r.vars, v.name ∈ r.names ∧ v.index = r.names.idxOf v.name := by
  obtain ⟨name, body, head, direction, hmade⟩ := h
  rw [make_eq] at hmade
  have hnames : r.names = slotNames direction body head := by
    rw [names, hmade]
    exact slotNames_renamed (f := Numbering.place _) (fun _ => rfl) direction body head
  refine ⟨by rw [hnames, hmade], fun v hv => ⟨name_mem_slotNames _ hv, ?_⟩⟩
  rw [vars, clauses, hmade, ← List.map_append, vars_renamedClauses] at hv
  obtain ⟨w, -, rfl⟩ := List.mem_map.1 hv
  rw [hnames]
  rfl

/-- The variables have the ranks of their names. -/
theorem Made.indexes_eq (h : r.Made) :
    (varsInOrder r.direction r.body r.head).map Var.index =
      ranks ((varsInOrder r.direction r.body r.head).map Var.name) := by
  rw [ranks, List.map_map]
  exact List.map_congr_left fun v hv => (h.numbered.2 v (mem_varsInOrder.1 hv)).2

theorem Made.eq_of_name_eq (h : r.Made) {v w : Var} (hv : v ∈ r.vars) (hw : w ∈ r.vars)
    (hname : v.name = w.name) : v = w := by
  have hindex := (h.numbered.2 v hv).2.trans
    ((congrArg r.names.idxOf hname).trans (h.numbered.2 w hw).2.symm)
  cases v
  cases w
  exact congrArg₂ Var.mk hname hindex

/-- The indexes of the variables of all clauses. -/
def clauseIndexes (r : Rule) : List Nat := r.clauses.flatMap Numbering.clauseIndexes

/-- Every variable of a rule has a slot. -/
theorem lt_numVars_of_make {name : Option String} {body head : List Clause} {direction : Direction}
    {i : Nat} (h : i ∈ (make name body head direction).clauseIndexes) :
    i < (make name body head direction).numVars := by
  obtain ⟨c, hc, hi⟩ := List.mem_flatMap.1 h
  obtain ⟨v, hv, rfl⟩ := List.mem_map.1 hi
  have hmade : (make name body head direction).Made := ⟨name, body, head, direction, rfl⟩
  obtain ⟨hmem, hindex⟩ := hmade.numbered.2 v (List.mem_flatMap.2 ⟨c, hc, hv⟩)
  rw [hindex, hmade.numbered.1]
  exact List.idxOf_lt_length_iff.2 hmem

/-! ## Slots -/

/-- Only names are read of the variables. -/
theorem make_renamed {f : Var → Var} (hf : ∀ v, (f v).name = v.name) (name : Option String)
    (body head : List Clause) (direction : Direction) :
    make name (body.map (Clause.renamed f)) (head.map (Clause.renamed f)) direction =
      make name body head direction := by
  have hclauses : ∀ (names : Numbering) (cs : List Clause),
      (cs.map (Clause.renamed f)).map (Clause.renamed names.place) =
        cs.map (Clause.renamed names.place) := by
    intro names cs
    rw [List.map_map]
    refine List.map_congr_left fun c _ => ?_
    rw [Function.comp_apply, Clause.renamed_renamed]
    refine congrArg (Clause.renamed · c) (funext fun v => ?_)
    rw [Numbering.place, Numbering.place, hf]
  rw [make_eq, make_eq, slotNames_renamed hf, hclauses, hclauses]

/-- Turned to a direction, a rule is what would have been made for it. -/
theorem withDirection_make (name : Option String) (body head : List Clause)
    (direction other : Direction) :
    (make name body head direction).withDirection other = make name body head other := by
  rw [withDirection, make_eq name body head direction]
  exact make_renamed (f := Numbering.place (slotNames direction body head)) (fun _ => rfl)
    name body head other

theorem numVars_make (name : Option String) (body head : List Clause)
    (direction other : Direction) :
    (make name body head direction).numVars = (make name body head other).numVars := by
  rw [make_eq, make_eq]
  refine length_eraseDups_congr fun n => ?_
  cases direction <;> cases other <;> simp [varsInOrder, or_comm]

/-- The variables are numbered by their names, from zero on and without gaps, in the order
in which they occur first: in the body and then the head of a forward rule, in the head and
then the body of a backward one. -/
structure Slotted (r : Rule) : Prop where
  index_eq_iff : ∀ v ∈ r.vars, ∀ w ∈ r.vars, v.index = w.index ↔ v.name = w.name
  first_indexes : ((varsInOrder r.direction r.body r.head).map Var.index).eraseDups =
    List.range r.numVars

theorem Made.slotted {r : Rule} (h : r.Made) : r.Slotted where
  index_eq_iff v hv w hw := by
    obtain ⟨hmem, hindex⟩ := h.numbered.2 v hv
    obtain ⟨-, hindex'⟩ := h.numbered.2 w hw
    rw [hindex, hindex']
    exact List.idxOf_inj hmem
  first_indexes := by
    rw [h.indexes_eq, eraseDups_ranks, h.numbered.1]
    rfl

/-- Making a rule gives the variables of its clauses numbers and changes nothing else.  The
numbers are canonical, and however often the rule is turned round, it is the same rule
whenever it has its direction again. -/
theorem make_canonical (name : Option String) (body head : List Clause) (direction : Direction) :
    (∃ number : Var → Nat, make name body head direction =
        { name
          body := body.map (Clause.renamed fun v => ⟨v.name, number v⟩)
          head := head.map (Clause.renamed fun v => ⟨v.name, number v⟩)
          numVars := (make name body head direction).numVars
          direction }) ∧
      (make name body head direction).Slotted ∧
      ∀ other, ((make name body head direction).withDirection other).Slotted ∧
        ((make name body head direction).withDirection other).direction = other ∧
        ((make name body head direction).withDirection other).numVars =
          (make name body head direction).numVars ∧
        ((make name body head direction).withDirection other).withDirection direction =
          make name body head direction := by
  have hslotted : ∀ other, (make name body head other).Slotted :=
    fun other => Made.slotted ⟨name, body, head, other, rfl⟩
  refine ⟨⟨fun v => (slotNames direction body head).idxOf v.name, ?_⟩, hslotted direction,
    fun other => ?_⟩
  · rw [make_eq]
    rfl
  · rw [withDirection_make, withDirection_make]
    refine ⟨hslotted other, ?_, numVars_make name body head other direction, rfl⟩
    rw [make_eq]

/-- The head of a backward rule is numbered before its body, and arguments in their places. -/
example :
    (make none
      [.pattern ⟨.var ⟨"b", 7⟩, .uri "p", .functor "f" [.var ⟨"a", 7⟩, .any, .var ⟨"b", 7⟩]⟩]
      [.pattern ⟨.var ⟨"c", 7⟩, .uri "q", .var ⟨"a", 7⟩⟩] .backward).vars.map Var.index =
    [2, 1, 2, 0, 1] := by decide

end Rule

end Entailment
