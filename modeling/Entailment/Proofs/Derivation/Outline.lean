import Entailment.Proofs.Derivation.Recording
import Mathlib.Algebra.Order.BigOperators.Group.List
import Mathlib.Algebra.Order.Group.Nat
import Mathlib.Logic.Relation

/-!
# What a trace shows

A trace is an outline.  Below each step of a proof stand the triples that it has matched,
in the order of the body and one level deeper, each as a fact, as a conclusion that has
been shown above, or as the steps that conclude it.  `Outlined` says so without a bound on
the work, and the bound that traces are written with is never reached.  A conclusion is
expanded when it is met for the first time, so however its derivations share conclusions
or go round in circles, the steps of a trace are those of all conclusions that can be
reached, each once.
-/

namespace Entailment

/-- What a step adds to the work of an outline: itself and its antecedents. -/
def Derivation.work (d : Derivation) : Nat := d.matchedTriples.length + 1

namespace DerivationLog

/-! ## Items and lines -/

namespace TraceItem

def triple? : TraceItem → Option Triple
  | .triple t _ => some t
  | .step _ _ => none

def derivation? : TraceItem → Option Derivation
  | .triple _ _ => none
  | .step d _ => some d

def work : TraceItem → Nat
  | .triple _ _ => 1
  | .step d _ => d.work

/-- The triples among the items. -/
def triples (items : List TraceItem) : List Triple := items.filterMap triple?

/-- The steps among the items. -/
def derivations (items : List TraceItem) : List Derivation := items.filterMap derivation?

end TraceItem

/-- A line of a trace and its level. -/
inductive TraceLine where
  | fact (t : Triple) (depth : Nat)
  | shown (t : Triple) (depth : Nat)
  | concluded (d : Derivation) (depth : Nat)

namespace TraceLine

def text : TraceLine → String
  | .fact t depth => margin depth ++ "Fact " ++ t.text
  | .shown t depth => margin depth ++ t.text ++ " - already shown"
  | .concluded d depth =>
    margin depth ++ "Rule " ++ d.rule.label ++ " concluded " ++ d.conclusion.text ++ " <-"

def fact? : TraceLine → Option Triple
  | .fact t _ => some t
  | _ => none

def shown? : TraceLine → Option Triple
  | .shown t _ => some t
  | _ => none

def derivation? : TraceLine → Option Derivation
  | .concluded d _ => some d
  | _ => none

/-- The triples that are written as facts. -/
def facts (lines : List TraceLine) : List Triple := lines.filterMap fact?

/-- The triples that are written as already shown. -/
def repeats (lines : List TraceLine) : List Triple := lines.filterMap shown?

/-- The derivations whose steps are written. -/
def derivations (lines : List TraceLine) : List Derivation := lines.filterMap derivation?

/-- What a trace of the triple comes to: the triple itself and all antecedents of the
steps that are written. -/
def occurrences (t : Triple) (lines : List TraceLine) : List Triple :=
  t :: (derivations lines).flatMap Derivation.matchedTriples

end TraceLine

/-- Where the conclusions `seen` have been expanded before, the items are written as the
lines, and the conclusions in the last place have been expanded then. -/
inductive Outlined (log : DerivationLog) :
    List Triple → List TraceItem → List TraceLine → List Triple → Prop where
  | nil {seen : List Triple} : Outlined log seen [] [] seen
  | fact {seen seen' : List Triple} {t : Triple} {depth : Nat} {rest : List TraceItem}
      {lines : List TraceLine} :
      log.get t = [] → Outlined log seen rest lines seen' →
        Outlined log seen (.triple t depth :: rest) (.fact t depth :: lines) seen'
  | shown {seen seen' : List Triple} {t : Triple} {depth : Nat} {rest : List TraceItem}
      {lines : List TraceLine} :
      log.get t ≠ [] → seen.contains t = true → Outlined log seen rest lines seen' →
        Outlined log seen (.triple t depth :: rest) (.shown t depth :: lines) seen'
  | expanded {seen mid seen' : List Triple} {t : Triple} {depth : Nat} {rest : List TraceItem}
      {block lines : List TraceLine} :
      log.get t ≠ [] → seen.contains t = false →
        Outlined log (t :: seen) ((log.get t).map (.step · depth)) block mid →
        Outlined log mid rest lines seen' →
        Outlined log seen (.triple t depth :: rest) (block ++ lines) seen'
  | step {seen mid seen' : List Triple} {d : Derivation} {depth : Nat} {rest : List TraceItem}
      {block lines : List TraceLine} :
      Outlined log seen (d.matchedTriples.map (.triple · (depth + 1))) block mid →
        Outlined log mid rest lines seen' →
        Outlined log seen (.step d depth :: rest) (.concluded d depth :: (block ++ lines)) seen'

variable {log : DerivationLog} {seen seen' : List Triple} {items items' : List TraceItem}
  {lines : List TraceLine} {t u : Triple} {fuel : Nat}

/-- Items one after the other are written one after the other. -/
theorem Outlined.of_append (h : log.Outlined seen (items ++ items') lines seen') :
    ∃ block mid after, lines = block ++ after ∧ log.Outlined seen items block mid ∧
      log.Outlined mid items' after seen' := by
  induction items generalizing seen lines with
  | nil => exact ⟨[], seen, lines, rfl, .nil, h⟩
  | cons item items ih =>
      cases h with
      | fact hget hrest =>
          obtain ⟨block, mid, after, rfl, hblock, hafter⟩ := ih hrest
          exact ⟨_, mid, after, rfl, .fact hget hblock, hafter⟩
      | shown hget hseen hrest =>
          obtain ⟨block, mid, after, rfl, hblock, hafter⟩ := ih hrest
          exact ⟨_, mid, after, rfl, .shown hget hseen hblock, hafter⟩
      | expanded hget hseen hsteps hrest =>
          obtain ⟨block, mid, after, rfl, hblock, hafter⟩ := ih hrest
          exact ⟨_, mid, after, (List.append_assoc ..).symm, .expanded hget hseen hsteps hblock,
            hafter⟩
      | step hmatched hrest =>
          obtain ⟨block, mid, after, rfl, hblock, hafter⟩ := ih hrest
          refine ⟨_, mid, after, ?_, .step hmatched hblock, hafter⟩
          rw [List.cons_append, List.append_assoc]

/-! ## The work of an outline -/

/-- The work for the conclusions that have not been expanded. -/
def openWork (log : DerivationLog) (seen : List Triple) : Nat :=
  ((log.entries.entries.filter fun e => !seen.contains e.1).map fun e =>
    (e.2.map Derivation.work).sum).sum

theorem sum_filter_add_le {α : Type} {p q : α → Bool} (f : α → Nat) {as : List α} {a : α}
    (ha : a ∈ as) (hp : p a = true) (hq : q a = false) (hle : ∀ b, q b = true → p b = true) :
    ((as.filter q).map f).sum + f a ≤ ((as.filter p).map f).sum := by
  have hkept : as.filter q = (as.filter p).filter q := by
    rw [List.filter_filter]
    refine List.filter_congr fun b _ => ?_
    cases hqb : q b with
    | true => rw [hle b hqb, Bool.and_self]
    | false => rw [Bool.false_and]
  obtain ⟨before, after, hsplit⟩ := List.append_of_mem (List.mem_filter.2 ⟨ha, hp⟩)
  have hsub : ((as.filter q).map f).Sublist ((before ++ after).map f) := by
    rw [hkept, hsplit, List.filter_append, List.filter_cons_of_neg (Bool.eq_false_iff.1 hq),
      ← List.filter_append]
    exact List.filter_sublist.map f
  have hle' := hsub.sum_le_sum fun _ _ => Nat.zero_le _
  rw [hsplit]
  simp only [List.map_append, List.map_cons, List.sum_append, List.sum_cons] at hle' ⊢
  omega

/-- Expanding a conclusion spends its part of the work. -/
theorem openWork_cons (hget : log.get t ≠ []) (hseen : seen.contains t = false) :
    log.openWork (t :: seen) + ((log.get t).map Derivation.work).sum ≤ log.openWork seen := by
  cases hentry : log.entries.get? t with
  | none =>
      rw [get, hentry] at hget
      exact absurd rfl hget
  | some steps =>
      obtain ⟨e, he, hkey, rfl⟩ := OrderedMap.get?_eq_some_iff.1 hentry
      have hsteps : log.get t = e.2 := by rw [get, hentry, Option.getD_some]
      rw [hsteps]
      refine sum_filter_add_le (fun e => (e.2.map Derivation.work).sum) he ?_ ?_ fun b hb => ?_
      · rw [List.contains_congr hkey, hseen]
        rfl
      · rw [List.contains_cons, hkey]
        rfl
      · rw [List.contains_cons, Bool.not_or, Bool.and_eq_true] at hb
        exact hb.2

theorem openWork_lt_outlineBound (log : DerivationLog) : log.openWork [] < log.outlineBound := by
  have hfold : ∀ ns : List Nat, ns.foldr (· + ·) 2 = ns.sum + 2 := by
    intro ns
    induction ns with
    | nil => rfl
    | cons n ns ih => rw [List.foldr_cons, ih, List.sum_cons, Nat.add_assoc]
  have hall : log.openWork [] = (log.derivations.map Derivation.work).sum := by
    have hopen : (log.entries.entries.filter fun e => !([] : List Triple).contains e.1) =
        log.entries.entries := List.filter_eq_self.2 fun _ _ => rfl
    rw [openWork, hopen, derivations, OrderedMap.values, List.map_flatten, List.sum_flatten,
      List.map_map, List.map_map]
    rfl
  rw [hall, outlineBound, hfold]
  exact Nat.lt_add_of_pos_right Nat.two_pos

/-- With work enough for the items and all that is not expanded, nothing is left out. -/
theorem exists_outlined
    (hfuel : (items.map TraceItem.work).sum + log.openWork seen ≤ fuel) :
    ∃ lines seen', log.Outlined seen items lines seen' ∧
      log.outline fuel seen items = lines.map TraceLine.text := by
  induction fuel generalizing seen items with
  | zero =>
      cases items with
      | nil => exact ⟨[], seen, .nil, rfl⟩
      | cons item items => cases item <;> simp [TraceItem.work, Derivation.work] at hfuel
  | succ fuel ih =>
      match items with
      | [] => exact ⟨[], seen, .nil, rfl⟩
      | .triple t depth :: rest =>
          simp only [List.map_cons, List.sum_cons, TraceItem.work] at hfuel
          rw [outline]
          split
          · rename_i hget
            obtain ⟨lines, seen', hrest, houtline⟩ := @ih seen rest (by omega)
            exact ⟨_, seen', .fact hget hrest, by rw [houtline]; rfl⟩
          · rename_i hget
            have hne : log.get t ≠ [] := hget
            split
            · rename_i hseen
              obtain ⟨lines, seen', hrest, houtline⟩ := @ih seen rest (by omega)
              exact ⟨_, seen', .shown hne hseen hrest, by rw [houtline]; rfl⟩
            · rename_i hseen
              have hopen := openWork_cons hne (Bool.eq_false_iff.2 hseen)
              have hsteps : (((log.get t).map (TraceItem.step · depth)).map TraceItem.work).sum =
                  ((log.get t).map Derivation.work).sum := by
                rw [List.map_map]
                rfl
              obtain ⟨lines, seen', hall, houtline⟩ := @ih (t :: seen)
                ((log.get t).map (.step · depth) ++ rest)
                (by rw [List.map_append, List.sum_append, hsteps]; omega)
              obtain ⟨block, mid, after, rfl, hblock, hafter⟩ := hall.of_append
              exact ⟨_, seen', .expanded hne (Bool.eq_false_iff.2 hseen) hblock hafter, houtline⟩
      | .step d depth :: rest =>
          simp only [List.map_cons, List.sum_cons, TraceItem.work, Derivation.work] at hfuel
          have hmatched : ((d.matchedTriples.map (TraceItem.triple · (depth + 1))).map
              TraceItem.work).sum = d.matchedTriples.length := by
            rw [List.map_map, show TraceItem.work ∘ (TraceItem.triple · (depth + 1)) =
              Function.const _ 1 from rfl, List.map_const, List.sum_replicate]
            simp
          obtain ⟨lines, seen', hall, houtline⟩ := @ih seen
            (d.matchedTriples.map (.triple · (depth + 1)) ++ rest)
            (by rw [List.map_append, List.sum_append, hmatched]; omega)
          obtain ⟨block, mid, after, rfl, hblock, hafter⟩ := hall.of_append
          exact ⟨_, seen', .step hblock hafter, by rw [outline, houtline]; rfl⟩

/-! ## What is expanded -/

/-- A triple that no derivation concludes. -/
def isFact (log : DerivationLog) (t : Triple) : Bool := (log.get t).isEmpty

/-- Some derivation of the first triple has matched the second one. -/
def Uses (log : DerivationLog) (t u : Triple) : Prop := ∃ d ∈ log.get t, u ∈ d.matchedTriples

theorem isFact_iff : log.isFact t = true ↔ log.get t = [] := List.isEmpty_iff

theorem isFact_eq_false (h : log.get t ≠ []) : log.isFact t = false :=
  Bool.eq_false_iff.2 fun hfact => h (isFact_iff.1 hfact)

namespace TraceItem

theorem triples_append : triples (items ++ items') = triples items ++ triples items' :=
  List.filterMap_append

theorem derivations_append :
    derivations (items ++ items') = derivations items ++ derivations items' :=
  List.filterMap_append

theorem triples_step (ds : List Derivation) (depth : Nat) :
    triples (ds.map (.step · depth)) = [] := by
  simp [triples, List.filterMap_map, triple?, Function.comp_def]

theorem derivations_step (ds : List Derivation) (depth : Nat) :
    derivations (ds.map (.step · depth)) = ds := by
  simp [derivations, List.filterMap_map, derivation?, Function.comp_def]

theorem triples_triple (ts : List Triple) (depth : Nat) :
    triples (ts.map (.triple · depth)) = ts := by
  simp [triples, List.filterMap_map, triple?, Function.comp_def]

theorem derivations_triple (ts : List Triple) (depth : Nat) :
    derivations (ts.map (.triple · depth)) = [] := by
  simp [derivations, List.filterMap_map, derivation?, Function.comp_def]

end TraceItem

namespace TraceLine

variable (block after : List TraceLine)

theorem derivations_append :
    derivations (block ++ after) = derivations block ++ derivations after :=
  List.filterMap_append

theorem facts_append : facts (block ++ after) = facts block ++ facts after :=
  List.filterMap_append

theorem repeats_append : repeats (block ++ after) = repeats block ++ repeats after :=
  List.filterMap_append

/-- The triples that the steps have matched. -/
def antecedents (lines : List TraceLine) : List Triple :=
  (derivations lines).flatMap Derivation.matchedTriples

theorem antecedents_append :
    antecedents (block ++ after) = antecedents block ++ antecedents after := by
  rw [antecedents, derivations_append, List.flatMap_append]
  rfl

end TraceLine

theorem perm_append_interchange {α : Type} (as bs cs ds : List α) :
    ((as ++ bs) ++ (cs ++ ds)).Perm ((as ++ cs) ++ (bs ++ ds)) := by
  rw [List.append_assoc, List.append_assoc]
  exact List.perm_append_comm_assoc bs cs ds |>.append_left as

/-- What is written for items: their steps and all steps of what is expanded, a line for
every fact, and for every other triple a line or its expansion. -/
structure Tells (log : DerivationLog) (items : List TraceItem) (lines : List TraceLine)
    (opened : List Triple) : Prop where
  derivations : (TraceLine.derivations lines).Perm
    (TraceItem.derivations items ++ opened.flatMap log.get)
  facts : (TraceLine.facts lines).Perm
    ((TraceItem.triples items ++ TraceLine.antecedents lines).filter fun t => log.isFact t)
  repeats : (TraceLine.repeats lines ++ opened).Perm
    ((TraceItem.triples items ++ TraceLine.antecedents lines).filter fun t => !log.isFact t)

namespace Tells

variable {block : List TraceLine} {opened opened' : List Triple} {d : Derivation} {depth : Nat}

theorem nil : log.Tells [] [] [] := ⟨.nil, .nil, .nil⟩

theorem fact (h : log.Tells items lines opened) (hget : log.get t = []) :
    log.Tells (.triple t depth :: items) (.fact t depth :: lines) opened := by
  have hfact : log.isFact t = true := isFact_iff.2 hget
  refine ⟨h.derivations, ?_, ?_⟩
  · change (t :: TraceLine.facts lines).Perm
      ((t :: (TraceItem.triples items ++ TraceLine.antecedents lines)).filter _)
    rw [List.filter_cons_of_pos hfact]
    exact h.facts.cons t
  · change (TraceLine.repeats lines ++ opened).Perm
      ((t :: (TraceItem.triples items ++ TraceLine.antecedents lines)).filter _)
    rw [List.filter_cons_of_neg (by rw [hfact]; exact Bool.false_ne_true)]
    exact h.repeats

theorem shown (h : log.Tells items lines opened) (hget : log.get t ≠ []) :
    log.Tells (.triple t depth :: items) (.shown t depth :: lines) opened := by
  have hfact := isFact_eq_false hget
  refine ⟨h.derivations, ?_, ?_⟩
  · change (TraceLine.facts lines).Perm
      ((t :: (TraceItem.triples items ++ TraceLine.antecedents lines)).filter _)
    rw [List.filter_cons_of_neg (by rw [hfact]; exact Bool.false_ne_true)]
    exact h.facts
  · change (t :: (TraceLine.repeats lines ++ opened)).Perm
      ((t :: (TraceItem.triples items ++ TraceLine.antecedents lines)).filter _)
    rw [List.filter_cons_of_pos (by rw [hfact]; rfl)]
    exact h.repeats.cons t

/-- Items one after the other. -/
theorem append (h : log.Tells items block opened) (h' : log.Tells items' lines opened') :
    log.Tells (items ++ items') (block ++ lines) (opened' ++ opened) := by
  refine ⟨?_, ?_, ?_⟩
  · rw [TraceLine.derivations_append, TraceItem.derivations_append, List.flatMap_append]
    exact (h.derivations.append h'.derivations).trans
      ((perm_append_interchange ..).trans (List.perm_append_comm.append_left _))
  · rw [TraceLine.facts_append, TraceItem.triples_append, TraceLine.antecedents_append]
    refine (h.facts.append h'.facts).trans ?_
    rw [← List.filter_append]
    exact (perm_append_interchange ..).filter _
  · rw [TraceLine.repeats_append, TraceItem.triples_append, TraceLine.antecedents_append]
    refine ((List.perm_append_comm.append_left _).trans (perm_append_interchange ..)).trans
      ((h.repeats.append h'.repeats).trans ?_)
    rw [← List.filter_append]
    exact (perm_append_interchange ..).filter _

/-- A conclusion stands for the steps that conclude it. -/
theorem expanded (h : log.Tells ((log.get t).map (.step · depth)) lines opened)
    (hget : log.get t ≠ []) : log.Tells [.triple t depth] lines (opened ++ [t]) := by
  have hfact := isFact_eq_false hget
  obtain ⟨hsteps, hfacts, hrepeats⟩ := h
  rw [TraceItem.derivations_step] at hsteps
  rw [TraceItem.triples_step, List.nil_append] at hfacts hrepeats
  refine ⟨?_, ?_, ?_⟩
  · rw [List.flatMap_append, List.flatMap_singleton]
    exact hsteps.trans List.perm_append_comm
  · change (TraceLine.facts lines).Perm ((t :: TraceLine.antecedents lines).filter _)
    rwa [List.filter_cons_of_neg (by rw [hfact]; exact Bool.false_ne_true)]
  · change (TraceLine.repeats lines ++ (opened ++ [t])).Perm
      ((t :: TraceLine.antecedents lines).filter _)
    rw [List.filter_cons_of_pos (by rw [hfact]; rfl), ← List.append_assoc]
    exact (List.perm_append_singleton ..).trans (hrepeats.cons t)

/-- A step stands for a line of its own and its antecedents. -/
theorem step (h : log.Tells (d.matchedTriples.map (.triple · (depth + 1))) lines opened) :
    log.Tells [.step d depth] (.concluded d depth :: lines) opened := by
  obtain ⟨hsteps, hfacts, hrepeats⟩ := h
  rw [TraceItem.derivations_triple] at hsteps
  rw [TraceItem.triples_triple] at hfacts hrepeats
  exact ⟨hsteps.cons d, hfacts, hrepeats⟩

theorem get_ne_nil (h : log.Tells items lines opened) (ht : t ∈ opened) : log.get t ≠ [] := by
  have hmem := h.repeats.mem_iff.1 (List.mem_append_right _ ht)
  intro hget
  have hfact : log.isFact t = true := isFact_iff.2 hget
  rw [List.mem_filter, hfact] at hmem
  exact Bool.false_ne_true hmem.2

end Tells

/-- What an outline writes, and which conclusions it adds to those expanded before. -/
theorem Outlined.tells (h : log.Outlined seen items lines seen') :
    ∃ opened, seen' = opened ++ seen ∧ log.Tells items lines opened := by
  induction h with
  | nil => exact ⟨[], rfl, .nil⟩
  | fact hget _ ih =>
      obtain ⟨opened, rfl, htells⟩ := ih
      exact ⟨opened, rfl, htells.fact hget⟩
  | shown hget _ _ ih =>
      obtain ⟨opened, rfl, htells⟩ := ih
      exact ⟨opened, rfl, htells.shown hget⟩
  | expanded hget _ _ _ ih ih' =>
      obtain ⟨opened, rfl, htells⟩ := ih
      obtain ⟨opened', rfl, htells'⟩ := ih'
      exact ⟨opened' ++ (opened ++ [_]), by simp only [List.append_assoc, List.singleton_append],
        (htells.expanded hget).append htells'⟩
  | step _ _ ih ih' =>
      obtain ⟨opened, rfl, htells⟩ := ih
      obtain ⟨opened', rfl, htells'⟩ := ih'
      exact ⟨opened' ++ opened, (List.append_assoc ..).symm, htells.step.append htells'⟩

theorem append_eq_append_cons {α : Type} {as bs cs ds : List α} {x : α}
    (h : as ++ bs = cs ++ x :: ds) :
    (∃ rest, as = cs ++ x :: rest) ∨ ∃ rest, cs = as ++ rest ∧ bs = rest ++ x :: ds := by
  rcases List.append_eq_append_iff.1 h with ⟨rest, hcs, hbs⟩ | ⟨rest, has, hds⟩
  · exact .inr ⟨rest, hcs, hbs⟩
  · cases rest with
    | nil => exact .inr ⟨[], by rw [has, List.append_nil, List.append_nil], hds.symm⟩
    | cons y rest =>
        obtain ⟨rfl, -⟩ := List.cons.inj hds
        exact .inl ⟨rest, has⟩

namespace Outlined

/-- What has been expanded stays expanded. -/
theorem contains_after (h : log.Outlined seen items lines seen')
    (hu : seen.contains u = true) : seen'.contains u = true := by
  obtain ⟨opened, rfl, -⟩ := h.tells
  rw [List.contains_append, hu, Bool.or_true]

/-- A conclusion is expanded only once. -/
theorem distinct (h : log.Outlined seen items lines seen') (hseen : Distinct seen) :
    Distinct seen' := by
  induction h with
  | nil => exact hseen
  | fact _ _ ih => exact ih hseen
  | shown _ _ _ ih => exact ih hseen
  | expanded _ hnew _ _ ih ih' =>
      refine ih' (ih (List.Pairwise.cons (fun u hu => ?_) hseen))
      exact Bool.eq_false_iff.2 fun hsame =>
        Bool.eq_false_iff.1 hnew (List.contains_iff_exists_mem_beq.2 ⟨u, hu, hsame⟩)
  | step _ _ ih ih' => exact ih' (ih hseen)

/-- What is expanded has any property that the items have and that goes over from a
conclusion to the triples that its derivations have matched. -/
theorem of_mem_after {P : Triple → Prop} (h : log.Outlined seen items lines seen')
    (hclosed : ∀ {u v}, P u → log.Uses u v → P v)
    (htriples : ∀ u ∈ TraceItem.triples items, P u)
    (hsteps : ∀ d ∈ TraceItem.derivations items, ∀ u ∈ d.matchedTriples, P u)
    (hu : u ∈ seen') : u ∈ seen ∨ P u := by
  induction h with
  | nil => exact .inl hu
  | fact _ _ ih => exact ih (fun u hu => htriples u (.tail _ hu)) hsteps hu
  | shown _ _ _ ih => exact ih (fun u hu => htriples u (.tail _ hu)) hsteps hu
  | expanded _ _ _ _ ih ih' =>
      have ht := htriples _ (.head _)
      rcases ih' (fun u hu => htriples u (.tail _ hu)) hsteps hu with hmid | hP
      · rw [TraceItem.triples_step, TraceItem.derivations_step] at ih
        rcases ih (fun u hu => nomatch hu) (fun d hd u hu => hclosed ht ⟨d, hd, hu⟩) hmid
          with hmid | hP
        · rcases List.mem_cons.1 hmid with rfl | hmid
          · exact .inr ht
          · exact .inl hmid
        · exact .inr hP
      · exact .inr hP
  | step _ _ ih ih' =>
      have hd := hsteps _ (.head _)
      rcases ih' htriples (fun d hd => hsteps d (.tail _ hd)) hu with hmid | hP
      · rw [TraceItem.triples_triple, TraceItem.derivations_triple] at ih
        exact ih hd (fun d hd => nomatch hd) hmid
      · exact .inr hP

/-- What is not expanded where it is met has been expanded before. -/
theorem contains_of_mem_repeats (h : log.Outlined seen items lines seen')
    (hu : u ∈ TraceLine.repeats lines) : seen'.contains u = true := by
  induction h with
  | nil => cases hu
  | fact _ _ ih => exact ih hu
  | shown _ hseen hrest ih =>
      rcases List.mem_cons.1 hu with rfl | hu
      · exact hrest.contains_after hseen
      · exact ih hu
  | expanded _ _ _ hrest ih ih' =>
      rw [TraceLine.repeats_append, List.mem_append] at hu
      exact hu.elim (fun hu => hrest.contains_after (ih hu)) ih'
  | step _ hrest ih ih' =>
      change u ∈ TraceLine.repeats (_ ++ _) at hu
      rw [TraceLine.repeats_append, List.mem_append] at hu
      exact hu.elim (fun hu => hrest.contains_after (ih hu)) ih'

/-- What is expanded has a derivation among the lines. -/
theorem exists_derivation (h : log.Outlined seen items lines seen')
    (hu : seen'.contains u = true) :
    seen.contains u = true ∨ ∃ d ∈ TraceLine.derivations lines, d ∈ log.get u := by
  obtain ⟨opened, rfl, htells⟩ := h.tells
  rw [List.contains_append, Bool.or_eq_true] at hu
  refine hu.symm.imp id fun hopened => ?_
  obtain ⟨c, hc, hsame⟩ := List.contains_iff_exists_mem_beq.1 hopened
  obtain ⟨d, hd⟩ := List.exists_mem_of_ne_nil _ (htells.get_ne_nil hc)
  refine ⟨d, htells.derivations.mem_iff.2 (List.mem_append_right _ ?_), ?_⟩
  · exact List.mem_flatMap.2 ⟨c, hc, hd⟩
  · rw [log.get_congr hsame]
    exact hd

/-- The lines of a step begin with its own. -/
theorem exists_eq_concluded {d : Derivation} {ds : List Derivation} {depth : Nat}
    (h : log.Outlined seen ((d :: ds).map (.step · depth)) lines seen') :
    ∃ rest, lines = .concluded d depth :: rest := by
  cases h with
  | step => exact ⟨_, rfl⟩

/-- A conclusion that is not expanded has been expanded before the items, or one of its
derivations is written further up. -/
theorem before_shown {before after : List TraceLine} {depth : Nat}
    (h : log.Outlined seen items lines seen') (hlines : lines = before ++ .shown u depth :: after) :
    seen.contains u = true ∨ ∃ d ∈ TraceLine.derivations before, d ∈ log.get u := by
  induction h generalizing before after with
  | nil => exact absurd hlines.symm (List.append_ne_nil_of_right_ne_nil _ (List.cons_ne_nil _ _))
  | fact _ _ ih =>
      cases before with
      | nil => cases (List.cons.inj hlines).1
      | cons line before =>
          obtain ⟨rfl, hrest⟩ := List.cons.inj hlines
          exact @ih before after hrest
  | shown _ hseen _ ih =>
      cases before with
      | nil =>
          cases (List.cons.inj hlines).1
          exact .inl hseen
      | cons line before =>
          obtain ⟨rfl, hrest⟩ := List.cons.inj hlines
          exact @ih before after hrest
  | @expanded seen mid seen' t level rest block lines hget hnew hblock _ ih ih' =>
      rcases append_eq_append_cons hlines with ⟨later, hsplit⟩ | ⟨earlier, rfl, hrest⟩
      · rcases ih hsplit with hseen | hearlier
        · rw [List.contains_cons, Bool.or_eq_true] at hseen
          refine hseen.symm.imp id fun hsame => ?_
          -- Within its own expansion the conclusion stands below its first derivation.
          obtain ⟨d, steps, hsteps⟩ := List.exists_cons_of_ne_nil hget
          rw [hsteps] at hblock
          obtain ⟨lines', rfl⟩ := hblock.exists_eq_concluded
          cases before with
          | nil => cases (List.cons.inj hsplit).1
          | cons line before =>
              obtain ⟨rfl, -⟩ := List.cons.inj hsplit
              refine ⟨d, .head _, ?_⟩
              rw [log.get_congr hsame, hsteps]
              exact .head _
        · exact .inr hearlier
      · rw [TraceLine.derivations_append]
        rcases ih' hrest with hmid | ⟨d, hd, hget⟩
        · have hopened : log.Outlined seen [.triple t level] (block ++ []) mid :=
            .expanded hget hnew hblock .nil
          have hfirst := hopened.exists_derivation hmid
          rw [List.append_nil] at hfirst
          exact hfirst.imp id fun ⟨d, hd, hget⟩ => ⟨d, List.mem_append_left _ hd, hget⟩
        · exact .inr ⟨d, List.mem_append_right _ hd, hget⟩
  | @step seen mid seen' d level rest block lines hblock _ ih ih' =>
      cases before with
      | nil => cases (List.cons.inj hlines).1
      | cons line before =>
          obtain ⟨rfl, htail⟩ := List.cons.inj hlines
          change _ ∨ ∃ e ∈ d :: TraceLine.derivations before, _
          rcases append_eq_append_cons htail with ⟨later, hsplit⟩ | ⟨earlier, rfl, hrest⟩
          · exact (ih hsplit).imp id fun ⟨d, hd, hget⟩ => ⟨d, .tail _ hd, hget⟩
          · rw [TraceLine.derivations_append]
            rcases ih' hrest with hmid | ⟨d, hd, hget⟩
            · exact (hblock.exists_derivation hmid).imp id fun ⟨d, hd, hget⟩ =>
                ⟨d, .tail _ (List.mem_append_left _ hd), hget⟩
            · exact .inr ⟨d, .tail _ (List.mem_append_right _ hd), hget⟩

/-- The lines are determined by the items. -/
theorem unique {lines' : List TraceLine} {seen'' : List Triple}
    (h : log.Outlined seen items lines seen') (h' : log.Outlined seen items lines' seen'') :
    lines = lines' ∧ seen' = seen'' := by
  induction h generalizing lines' seen'' with
  | nil => cases h'; exact ⟨rfl, rfl⟩
  | fact hget _ ih =>
      cases h' with
      | fact _ hrest =>
          obtain ⟨rfl, rfl⟩ := ih hrest
          exact ⟨rfl, rfl⟩
      | shown hne => exact absurd hget hne
      | expanded hne => exact absurd hget hne
  | shown hne hseen _ ih =>
      cases h' with
      | fact hget => exact absurd hget hne
      | shown _ _ hrest =>
          obtain ⟨rfl, rfl⟩ := ih hrest
          exact ⟨rfl, rfl⟩
      | expanded _ hnew => exact absurd hseen (Bool.eq_false_iff.1 hnew)
  | expanded hne hnew _ _ ih ih' =>
      cases h' with
      | fact hget => exact absurd hget hne
      | shown _ hseen => exact absurd hseen (Bool.eq_false_iff.1 hnew)
      | expanded _ _ hblock hrest =>
          obtain ⟨rfl, rfl⟩ := ih hblock
          obtain ⟨rfl, rfl⟩ := ih' hrest
          exact ⟨rfl, rfl⟩
  | step _ _ ih ih' =>
      cases h' with
      | step hblock hrest =>
          obtain ⟨rfl, rfl⟩ := ih hblock
          obtain ⟨rfl, rfl⟩ := ih' hrest
          exact ⟨rfl, rfl⟩

end Outlined

/-! ## The whole trace -/

/-- The first triple is, or by some of its proofs rests on, a triple equal to the second. -/
def Reaches (log : DerivationLog) (t u : Triple) : Prop :=
  ∃ c, (c == u) = true ∧ Relation.ReflTransGen log.Uses t c

/-- The lines are an outline of all proofs of the triple, which expands the conclusions. -/
structure Recounts (log : DerivationLog) (t : Triple) (lines : List TraceLine)
    (conclusions : List Triple) : Prop where
  /-- The matches of a step stand below it, one level deeper and in the order of the body. -/
  outlined : log.Outlined [] [.triple t 0] lines conclusions
  distinct : Distinct conclusions
  /-- The expanded conclusions are those that can be reached. -/
  reached : ∀ u, conclusions.contains u = true ↔ log.get u ≠ [] ∧ log.Reaches t u
  /-- Each of their derivations is written once. -/
  concluded : (TraceLine.derivations lines).Perm (conclusions.flatMap log.get)
  /-- Each occurrence of a triple without derivations is a fact. -/
  facts : (TraceLine.facts lines).Perm
    ((TraceLine.occurrences t lines).filter fun u => log.isFact u)
  /-- Of the occurrences of a conclusion one is expanded, and all others are repeats. -/
  repeats : (TraceLine.repeats lines ++ conclusions).Perm
    ((TraceLine.occurrences t lines).filter fun u => !log.isFact u)
  /-- A repeat stands below some derivation of its conclusion. -/
  later : ∀ before u depth after, lines = before ++ .shown u depth :: after →
    ∃ d ∈ TraceLine.derivations before, d ∈ log.get u

theorem Outlined.recounts {conclusions : List Triple}
    (h : log.Outlined [] [.triple t 0] lines conclusions) : log.Recounts t lines conclusions := by
  obtain ⟨opened, hopened, htells⟩ := h.tells
  rw [List.append_nil] at hopened
  subst hopened
  have hoccur : TraceItem.triples [.triple t 0] ++ TraceLine.antecedents lines =
      TraceLine.occurrences t lines := rfl
  have hsteps := htells.derivations
  have hfacts := htells.facts
  have hrepeats := htells.repeats
  rw [hoccur] at hfacts hrepeats
  -- An occurrence of a conclusion is expanded or repeats an expansion.
  have hexpanded : ∀ {u}, u ∈ TraceLine.occurrences t lines → log.get u ≠ [] →
      conclusions.contains u = true := by
    intro u hu hget
    have hkept : u ∈ (TraceLine.occurrences t lines).filter fun u => !log.isFact u :=
      List.mem_filter.2 ⟨hu, by rw [isFact_eq_false hget]; rfl⟩
    rcases List.mem_append.1 (hrepeats.mem_iff.2 hkept) with hrepeat | hmem
    · exact h.contains_of_mem_repeats hrepeat
    · exact List.contains_iff_exists_mem_beq.2 ⟨u, hmem, BEq.rfl⟩
  have hreach : ∀ {u}, Relation.ReflTransGen log.Uses t u → log.get u ≠ [] →
      conclusions.contains u = true := by
    intro u hu
    induction hu with
    | refl => exact hexpanded (.head _)
    | tail _ huses ih =>
        obtain ⟨d, hd, hmatched⟩ := huses
        obtain ⟨c, hc, hsame⟩ := List.contains_iff_exists_mem_beq.1 (ih (List.ne_nil_of_mem hd))
        refine hexpanded (.tail _ (List.mem_flatMap.2 ⟨d, hsteps.mem_iff.2 ?_, hmatched⟩))
        refine List.mem_append_right _ (List.mem_flatMap.2 ⟨c, hc, ?_⟩)
        rwa [← log.get_congr hsame]
  refine ⟨h, h.distinct .nil, fun u => ⟨fun hu => ?_, fun ⟨hget, c, hsame, hc⟩ => ?_⟩, hsteps,
    hfacts, hrepeats, fun before u depth after hlines => ?_⟩
  · obtain ⟨c, hc, hsame⟩ := List.contains_iff_exists_mem_beq.1 hu
    refine ⟨?_, c, BEq.symm hsame, ?_⟩
    · rw [log.get_congr hsame]
      exact htells.get_ne_nil hc
    · refine (h.of_mem_after (P := Relation.ReflTransGen log.Uses t) (fun hu huses => hu.tail huses)
        (fun u hu => ?_) nofun hc).resolve_left nofun
      rw [List.mem_singleton.1 hu]
  · rw [← List.contains_congr hsame]
    exact hreach hc (by rwa [log.get_congr hsame])
  · exact (h.before_shown hlines).resolve_left nofun

/-- A trace recounts all proofs of its triple, however they share conclusions or go round
in circles: no work beyond the bound that it is written with would add to its lines. -/
theorem trace_recounts (log : DerivationLog) (t : Triple) :
    ∃ lines conclusions, log.Recounts t lines conclusions ∧
      (∀ fuel, log.outlineBound ≤ fuel →
        log.outline fuel [] [.triple t 0] = lines.map TraceLine.text) ∧
      log.trace t = String.join (lines.map fun line => line.text ++ "\n") := by
  have hbound : ∀ fuel, log.outlineBound ≤ fuel → ∃ lines conclusions,
      log.Outlined [] [.triple t 0] lines conclusions ∧
        log.outline fuel [] [.triple t 0] = lines.map TraceLine.text := fun fuel hfuel =>
    exists_outlined (by
      have hopen := log.openWork_lt_outlineBound
      change 1 + 0 + log.openWork [] ≤ fuel
      omega)
  obtain ⟨lines, conclusions, houtlined, houtline⟩ := hbound _ (Nat.le_refl _)
  refine ⟨lines, conclusions, houtlined.recounts, fun fuel hfuel => ?_, ?_⟩
  · obtain ⟨lines', conclusions', houtlined', houtline'⟩ := hbound fuel hfuel
    rw [houtline', (houtlined'.unique houtlined).1]
  · rw [trace, traceLines, houtline, List.map_map]
    rfl

end DerivationLog

end Entailment
