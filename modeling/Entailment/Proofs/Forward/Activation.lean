import Entailment.Proofs.Forward.Extension

/-!
# Activating the levels of a triple

A triple that comes into view is joined with the tokens one level up that agree with
it on the shared variables, and what this gives grows level by level.  No token that
the triple could extend is missed, since equal values of the shared variables are
equal keys.
-/

namespace Entailment

theorem mem_varIndexes_iff {t : Triple} {i : Nat} : i ∈ t.varIndexes ↔ i ∈ t.indexes := by
  rw [Triple.varIndexes, List.mem_eraseDups, Triple.indexes]

/-- A shared variable occurs in the pattern and before it. -/
theorem mem_sharedVariables {met : List Nat} {ps : List Triple} {level : Nat} {is : List Nat}
    (h : (sharedVariables met ps)[level]? = some is) {i : Nat} (hi : i ∈ is) :
    (∃ p, ps[level]? = some p ∧ i ∈ p.indexes) ∧
      (i ∈ met ∨ ∃ k q, k < level ∧ ps[k]? = some q ∧ i ∈ q.indexes) := by
  induction ps generalizing met level with
  | nil => cases h
  | cons p ps ih =>
      rw [sharedVariables] at h
      cases level with
      | zero =>
          obtain rfl := Option.some.inj h
          rw [List.mem_filter, mem_varIndexes_iff] at hi
          exact ⟨⟨p, rfl, hi.1⟩, Or.inl (by simpa using hi.2)⟩
      | succ level =>
          obtain ⟨hat, hbefore⟩ := ih h
          refine ⟨hat, ?_⟩
          rcases hbefore with hmet | ⟨k, q, hk, hq, hmem⟩
          · rcases List.mem_append.1 hmet with hmet | hfirst
            · exact Or.inl hmet
            · exact Or.inr ⟨0, p, Nat.succ_pos _, rfl, mem_varIndexes_iff.1 hfirst⟩
          · exact Or.inr ⟨k + 1, q, Nat.succ_lt_succ hk, hq, hmem⟩

namespace CompiledRule

variable {c : CompiledRule}

/-- The values on which a level is joined are those of its shared variables. -/
def Shares (c : CompiledRule) : Prop := c.joins = sharedVariables [] (c.patterns.map Prod.snd)

/-- Environments that agree on the shared variables of a level have equal keys there. -/
theorem joinKey_beq {level : Nat} {b b' : Bindings}
    (h : ∀ is, c.joins[level]? = some is → ∀ i ∈ is, ∃ m n, b.held? i = some m ∧
      b'.held? i = some n ∧ (m == n) = true)
    (hb : b.Ground) (hb' : b'.Ground) : (c.joinKey level b == c.joinKey level b') = true := by
  unfold joinKey
  cases hjoin : c.joins[level]? with
  | none => rfl
  | some is =>
      have hall := h is hjoin
      rw [Option.getD_some]
      clear hjoin h
      induction is with
      | nil => rfl
      | cons i is ih =>
          rw [List.map_cons, List.map_cons, list_beq_cons, Bool.and_eq_true]
          refine ⟨?_, ih fun j hj => hall j (List.mem_cons_of_mem _ hj)⟩
          obtain ⟨m, n, hm, hn, hsame⟩ := hall i (List.mem_cons_self ..)
          rw [hb.value_eq, hb'.value_eq, hm, hn, Option.bind_some, Option.bind_some,
            Node.isNested_congr hsame]
          split
          · exact BEq.rfl
          · exact hsame

/-- What a token can be extended by has the token's key. -/
theorem joinKey_of_matched (hc : c.Shares) {ts : List Triple} {b b' alone : Bindings}
    {p : Nat × Triple} {t : Triple} (hts : c.Matches ts b)
    (hp : c.patterns[ts.length]? = some p) (ht : t.isGround = true)
    (hmatch : b.matching? p.2 t = some b')
    (halone : (Bindings.empty c.rule.numVars).matching? p.2 t = some alone) :
    (c.joinKey ts.length b == c.joinKey ts.length alone) = true := by
  have hmatched := hts.matched ht hmatch
  have hground := Bindings.ground_empty c.rule.numVars
  have hmatchedAlone := hground.matched ht halone
  apply joinKey_beq _ hts.ground hmatchedAlone.ground
  intro is his i hi
  rw [hc] at his
  obtain ⟨⟨q, hq, hmem⟩, hbefore⟩ := mem_sharedVariables his hi
  rw [List.getElem?_map, hp] at hq
  obtain rfl := Option.some.inj hq
  obtain ⟨n, hn⟩ := hmatchedAlone.covers i hmem
  have hheld : (b.held? i).isSome = true := by
    rw [hts.held?_isSome_iff]
    rcases hbefore with hmet | ⟨k, q, hk, hq, hmemq⟩
    · cases hmet
    · rw [List.getElem?_map, Option.map_eq_some_iff] at hq
      obtain ⟨entry, hentry, rfl⟩ := hq
      exact ⟨k, entry, hk, hentry, hmemq⟩
  obtain ⟨m, hm⟩ := Option.isSome_iff_exists.1 hheld
  refine ⟨m, n, hm, hn, ?_⟩
  -- Both values equal the one under the assignment of the joint environment.
  obtain ⟨hadmits, hfits⟩ := (hmatched.admits_iff _).1 b'.admits_assignment
  have hempty : (Bindings.empty c.rule.numVars).Admits b'.assignment := by
    intro j x hx
    rw [Bindings.held?_empty] at hx
    cases hx
  have hadmitsAlone := (hmatchedAlone.admits_iff _).2 ⟨hempty, hfits⟩
  exact BEq.trans (BEq.symm (hadmits i m hm)) (hadmitsAlone i n hn)

end CompiledRule

namespace Network

/-- Every pattern of every rule has a plain predicate. -/
def Overt (n : Network) : Prop :=
  ∀ r c (level : Nat) (p : Nat × Triple), n.rule? r = some c → c.patterns[level]? = some p →
    p.2.hasPlainPredicate = true

theorem Overt.plain {n : Network} (h : n.Overt) : n.Plain :=
  fun r c level p hc hp => h r c (level + 1) p hc hp

theorem Wired.shares {n : Network} (hn : n.Wired) {r : Nat} {c : CompiledRule}
    (hc : n.rule? r = some c) : c.Shares := by
  obtain ⟨rule, rfl, _⟩ := (hn.rule r c hc).compiled
  rfl

end Network

namespace Engine

/-- The triple has not been joined yet at a level that it activates. -/
def Due (e : Engine MemoryGraph) (t : Triple) (subscribers : List Subscriber) (r : Nat)
    (place : Option TokenId) (u : Triple) : Prop :=
  (t == u) = true ∧ ∃ ts, (e.memory r).Spells place ts ∧
    (⟨r, ts.length⟩ : Subscriber) ∈ subscribers

variable {e : Engine MemoryGraph} {c : CompiledRule} {s : Subscriber}

/-- Every match that a join gives continues a token. -/
theorem proper_joins (he : e.Stocked) (hc : e.network.rule? s.rule = some c) {p : Nat × Triple}
    (hp : c.patterns[s.level]? = some p) {t : Triple} (ht : t.isGround = true)
    (hseen : e.view.sees t = true)
    (hplain : s.level = 0 → p.2.hasPlainPredicate = true) :
    e.Proper s.rule c s.level (e.joins c s p.2 t) := by
  obtain ⟨r, level⟩ := s
  intro x hx
  unfold joins at hx
  cases halone : (Bindings.empty c.rule.numVars).matching? p.2 t with
  | none =>
      rw [halone] at hx
      cases hx
  | some alone =>
      rw [halone] at hx
      cases level with
      | zero =>
          obtain rfl := List.mem_singleton.1 hx
          refine ⟨⟨⟨[], .root, rfl, .next .none hp ht halone⟩, ?_⟩, hseen⟩
          intro q hq
          rw [hp] at hq
          exact Option.some.inj hq ▸ hplain rfl
      | succ level =>
          obtain ⟨id, hid, hjoin⟩ := List.mem_filterMap.1 hx
          obtain ⟨token, htoken, hlevel, _⟩ := ((he.2 r).indexed.joining_iff _ _ id).1 hid
          obtain ⟨stored, hstored, hbare⟩ := Option.map_eq_some_iff.1 htoken
          rw [hstored] at hjoin
          change ((stored.bindings.matching? p.2 t).bind fun b =>
            some (⟨some id, t, b⟩ : PartialMatch)) = some x at hjoin
          obtain ⟨b, hb, hx⟩ := Option.bind_eq_some_iff.1 hjoin
          obtain rfl := Option.some.inj hx
          have hbindings : token.bindings = stored.bindings := by rw [← hbare]; rfl
          obtain ⟨ts, hts⟩ := (he.2 r).rooted.exists_spells htoken
          obtain ⟨hmatches, _⟩ := (he.2 r).token c hc id token ts htoken hts
          have hlength := hts.length_eq (he.2 r).rooted htoken
          rw [hlevel] at hlength
          rw [hbindings] at hmatches
          refine ⟨⟨⟨ts, hts, hlength, .next hmatches (by rw [hlength]; exact hp) ht hb⟩, ?_⟩, hseen⟩
          exact (he.2 r).entered c hc id token htoken

/-- A join gives every token of the level above that the triple can extend. -/
theorem exists_mem_joins (he : e.Stocked) (hshares : c.Shares)
    (hc : e.network.rule? s.rule = some c) {p : Nat × Triple}
    (hp : c.patterns[s.level]? = some p) {t : Triple} (ht : t.isGround = true)
    {place : Option TokenId} {ts : List Triple} {b b' : Bindings}
    (hts : (e.memory s.rule).Spells place ts) (hlength : ts.length = s.level)
    (hmatches : c.Matches ts b) (hmatch : b.matching? p.2 t = some b') :
    ∃ x ∈ e.joins c s p.2 t, x.parent = place ∧ x.triple = t := by
  obtain ⟨r, level⟩ := s
  have hmatched := hmatches.matched ht hmatch
  obtain ⟨hadmits, hfits⟩ := (hmatched.admits_iff _).1 b'.admits_assignment
  have hempty : (Bindings.empty c.rule.numVars).Admits b'.assignment := by
    intro j x hx
    rw [Bindings.held?_empty] at hx
    cases hx
  have hvars : ∀ i ∈ p.2.indexes, i < (Bindings.empty c.rule.numVars).length := by
    rw [Bindings.length_empty, ← hmatches.length_bindings]
    exact hmatched.lt_length
  obtain ⟨alone, halone⟩ :=
    (Bindings.ground_empty c.rule.numVars).exists_matching? ht hvars hempty hfits
  unfold joins
  rw [halone]
  cases level with
  | zero =>
      have hnil := List.length_eq_zero_iff.1 hlength
      subst hnil
      have hplace : place = none := by
        cases place with
        | none => rfl
        | some id =>
            obtain ⟨_, _, _, _, hsplit⟩ := hts.exists_token
            simp at hsplit
      exact ⟨⟨none, t, alone⟩, List.mem_singleton.2 rfl, hplace.symm, rfl⟩
  | succ level =>
      have hplace : ∃ id, place = some id := by
        cases place with
        | some id => exact ⟨id, rfl⟩
        | none =>
            cases hts
            cases hlength
      obtain ⟨id, rfl⟩ := hplace
      obtain ⟨token, _, htoken, _, _⟩ := hts.exists_token
      obtain ⟨hmatches', hkey⟩ := (he.2 r).token c hc id token ts htoken hts
      obtain rfl := hmatches.unique hmatches'
      have hlevel := hts.length_eq (he.2 r).rooted htoken
      have hjoinKey := CompiledRule.joinKey_of_matched hshares hmatches
        (by rw [hlength]; exact hp) ht hmatch halone
      have hid : id ∈ (e.memory r).joining level (c.joinKey (level + 1) alone) := by
        apply ((he.2 r).indexed.joining_iff _ _ id).2
        refine ⟨token, htoken, by change ts.length = level + 1 at hlength; omega, ?_⟩
        rw [hkey, ← hlevel]
        change ts.length = level + 1 at hlength
        rw [← hlength]
        exact hjoinKey
      obtain ⟨stored, hstored, hbare⟩ := Option.map_eq_some_iff.1 htoken
      have hbindings : token.bindings = stored.bindings := by rw [← hbare]; rfl
      refine ⟨⟨some id, t, b'⟩, List.mem_filterMap.2 ⟨id, hid, ?_⟩, rfl, rfl⟩
      rw [hstored]
      change ((stored.bindings.matching? p.2 t).bind fun b =>
        some (⟨some id, t, b⟩ : PartialMatch)) = _
      rw [← hbindings, hmatch]
      rfl

end Engine

namespace Work

variable {e : Engine MemoryGraph} {r : Nat} {c : CompiledRule}

/-- What is known when the matches of a list have been followed up. -/
def Follows (e e' : Engine MemoryGraph) (r : Nat) (found : List PartialMatch) : Prop :=
  e.Extends e' ∧ ∀ expected : Nat → Option TokenId → Triple → Prop,
    (e.Joined fun j place u => expected j place u ∨ Engine.Awaits found r j place u) →
    e'.Joined expected

theorem joined_of_awaits_nil {expected : Nat → Option TokenId → Triple → Prop}
    (h : e.Joined fun j place u => expected j place u ∨ Engine.Awaits [] r j place u) :
    e.Joined expected := by
  apply h.weaken
  rintro j place u _ (hexpected | ⟨_, q, hq, _⟩)
  · exact Or.inr hexpected
  · cases hq

theorem ends_completeAll (he : e.Stocked) (hc : e.network.rule? r = some c) {level : Nat}
    (hlevel : level + 1 = c.levels) {found : List PartialMatch}
    (hfound : e.Proper r c level found) :
    (found.forM (complete c ⟨r, level⟩)).Ends e fun _ e' => Follows e e' r found := by
  refine (ends_forM (fun rest e' => e.Extends e' ∧ e'.Proper r c level rest ∧
    ∀ expected : Nat → Option TokenId → Triple → Prop,
      (e.Joined fun j place u => expected j place u ∨ Engine.Awaits found r j place u) →
      e'.Joined fun j place u => expected j place u ∨ Engine.Awaits rest r j place u) ?_ found
    ⟨.refl he, hfound, fun _ h => h⟩).mono ?_
  · rintro p rest e₁ ⟨hextends, hproper, hjoins⟩
    obtain ⟨hp, hseen⟩ := hproper p (List.mem_cons_self ..)
    refine (ends_complete hextends.stocked (by rw [hextends.network_eq]; exact hc) hp hseen
      hlevel).mono ?_
    rintro _ e₂ ⟨hextends', hjoins'⟩
    refine ⟨hextends.trans hextends', ?_, ?_⟩
    · exact hextends'.proper fun q hq => hproper q (List.mem_cons_of_mem _ hq)
    · exact fun expected h => hjoins' expected rest (hjoins expected h)
  · rintro _ e' ⟨hextends, _, hjoins⟩
    exact ⟨hextends, fun expected h => joined_of_awaits_nil (hjoins expected h)⟩

theorem ends_extendAll (he : e.Stocked) (hview : e.view.Sound)
    (hc : e.network.rule? r = some c) {level : Nat} {next : Nat × Triple}
    (hnext : c.patterns[level + 1]? = some next) {found : List PartialMatch}
    (hfound : e.Proper r c level found) :
    (found.mapM (extend c ⟨r, level⟩ next.2)).Ends e fun xss e' => e.Extends e' ∧
      e'.Proper r c (level + 1) xss.flatten ∧
      ∀ expected : Nat → Option TokenId → Triple → Prop,
        (e.Joined fun j place u => expected j place u ∨ Engine.Awaits found r j place u) →
        e'.Joined fun j place u => expected j place u ∨ Engine.Awaits xss.flatten r j place u := by
  refine (ends_mapM (fun rest done e' => e.Extends e' ∧ e'.Proper r c level rest ∧
    e'.Proper r c (level + 1) done.flatten ∧
    ∀ expected : Nat → Option TokenId → Triple → Prop,
      (e.Joined fun j place u => expected j place u ∨ Engine.Awaits found r j place u) →
      e'.Joined fun j place u => (expected j place u ∨ Engine.Awaits rest r j place u) ∨
        Engine.Awaits done.flatten r j place u) ?_ found [] ?_).mono ?_
  · rintro p rest done e₁ ⟨hextends, hproper, hdone, hjoins⟩
    obtain ⟨hp, hseen⟩ := hproper p (List.mem_cons_self ..)
    have hview₁ : e₁.view.Sound := by rw [hextends.view_eq]; exact hview
    refine (ends_extend hextends.stocked hview₁ (by rw [hextends.network_eq]; exact hc) hp hseen
      hnext).mono ?_
    rintro xs e₂ ⟨hextends', hxs, hjoins'⟩
    refine ⟨hextends.trans hextends', ?_, ?_, ?_⟩
    · exact hextends'.proper fun q hq => hproper q (List.mem_cons_of_mem _ hq)
    · rw [List.flatten_append, List.flatten_singleton]
      intro x hx
      rcases List.mem_append.1 hx with hx | hx
      · exact hextends'.proper hdone x hx
      · exact hxs x hx
    · intro expected h
      have hfirst : e₁.Joined fun j place u =>
          (expected j place u ∨ Engine.Awaits done.flatten r j place u) ∨
            Engine.Awaits (p :: rest) r j place u := by
        apply (hjoins expected h).weaken
        rintro j place u _ ((hexpected | hrest) | hearlier)
        · exact Or.inr (Or.inl (Or.inl hexpected))
        · exact Or.inr (Or.inr hrest)
        · exact Or.inr (Or.inl (Or.inr hearlier))
      apply (hjoins' _ rest hfirst).weaken
      rintro j place u _ (((hexpected | ⟨rfl, q, hq, hrest⟩) | hwaits) | ⟨rfl, q, hq, hrest⟩)
      · exact Or.inr (Or.inl (Or.inl hexpected))
      · refine Or.inr (Or.inr ⟨rfl, q, ?_, hrest⟩)
        rw [List.flatten_append]
        exact List.mem_append_left _ hq
      · exact Or.inr (Or.inl (Or.inr hwaits))
      · refine Or.inr (Or.inr ⟨rfl, q, ?_, hrest⟩)
        rw [List.flatten_append, List.flatten_singleton]
        exact List.mem_append_right _ hq
  · refine ⟨.refl he, hfound, (fun x hx => nomatch hx), fun expected h => ?_⟩
    exact h.weaken fun j place u _ h => Or.inr (Or.inl h)
  · rintro xss e' ⟨hextends, _, hdone, hjoins⟩
    refine ⟨hextends, hdone, fun expected h => ?_⟩
    apply (hjoins expected h).weaken
    rintro j place u _ ((hexpected | ⟨_, q, hq, _⟩) | hxss)
    · exact Or.inr (Or.inl hexpected)
    · cases hq
    · exact Or.inr (Or.inr hxss)

/-- Matches grow level by level until nothing is left to be joined with them. -/
theorem ends_grow (he : e.Stocked) (hview : e.view.Sound) (hc : e.network.rule? r = some c)
    {level : Nat} {following : List Triple}
    (hfollowing : following = (c.patterns.drop (level + 1)).map Prod.snd)
    (hlevel : level < c.levels) {found : List PartialMatch}
    (hfound : e.Proper r c level found) :
    (grow c r level following found).Ends e fun _ e' => Follows e e' r found := by
  induction following generalizing e level found with
  | nil =>
      have hlast : level + 1 = c.levels := by
        have hdrop := List.drop_eq_nil_iff.1 (List.map_eq_nil_iff.1 hfollowing.symm)
        rw [CompiledRule.levels] at hlevel ⊢
        omega
      exact ends_completeAll he hc hlast hfound
  | cons next following ih =>
      have hbound : level + 1 < c.patterns.length := by
        by_contra hle
        rw [List.drop_eq_nil_of_le (Nat.le_of_not_lt hle)] at hfollowing
        cases hfollowing
      rw [List.drop_eq_getElem_cons hbound, List.map_cons] at hfollowing
      obtain ⟨hnext, hrest⟩ := List.cons.inj hfollowing
      have hget : c.patterns[level + 1]? = some c.patterns[level + 1] :=
        List.getElem?_eq_getElem hbound
      rw [grow, hnext]
      refine (ends_extendAll he hview hc hget hfound).bind ?_
      rintro xss e₁ ⟨hextends, hproper, hjoins⟩
      have hview₁ : e₁.view.Sound := by rw [hextends.view_eq]; exact hview
      refine (ih hextends.stocked hview₁ (by rw [hextends.network_eq]; exact hc) hrest hbound
        hproper).mono ?_
      rintro _ e' ⟨hextends', hjoins'⟩
      exact ⟨hextends.trans hextends', fun expected h => hjoins' expected (hjoins expected h)⟩

/-- A triple in view is joined at one level. -/
theorem ends_activate (he : e.Stocked) (hview : e.view.Sound) (hwired : e.network.Wired)
    {t : Triple} (hseen : e.view.sees t = true) {s : Subscriber}
    (hs : s ∈ e.network.activations t) :
    (activate t s).Ends e fun _ e' => e.Extends e' ∧
      ∀ (expected : Nat → Option TokenId → Triple → Prop) rest,
        (e.Joined fun j place u => expected j place u ∨ e.Due t (s :: rest) j place u) →
        e'.Joined fun j place u => expected j place u ∨ e'.Due t rest j place u := by
  have ht := hview.isGround hseen
  obtain ⟨c, p, hc, hp, hplain⟩ := hwired.plain_of_mem_activations ht hs
  have hbound : s.level < c.patterns.length := (List.getElem?_eq_some_iff.1 hp).1
  have hget : c.patterns[s.level] = p := (List.getElem?_eq_some_iff.1 hp).2
  unfold activate
  rw [ends_bind, ends_get]
  simp only [hc]
  have hdrop : (c.patterns.map Prod.snd).drop s.level =
      p.2 :: (c.patterns.drop (s.level + 1)).map Prod.snd := by
    rw [← List.map_drop, List.drop_eq_getElem_cons hbound, List.map_cons, hget]
  rw [hdrop]
  have hproper := Engine.proper_joins he hc hp ht hseen fun _ => hplain
  refine (ends_grow he hview hc rfl hbound hproper).mono ?_
  rintro _ e' ⟨hextends, hjoins⟩
  refine ⟨hextends, fun expected rest hjoined => ?_⟩
  have hfirst : e.Joined fun j place u =>
      (expected j place u ∨ e.Due t rest j place u) ∨
        Engine.Awaits (e.joins c s p.2 t) s.rule j place u := by
    apply hjoined.weaken
    rintro j place u ⟨c', us, b, q, b', hc', hus, hmatches, hq, huSeen, hmatch⟩
      (hexpected | ⟨hsame, ts, hts, hmem⟩)
    · exact Or.inr (Or.inl (Or.inl hexpected))
    · rcases List.mem_cons.1 hmem with hhere | hmem
      · subst hhere
        rw [hc] at hc'
        obtain rfl := Option.some.inj hc'
        obtain rfl := hts.unique hus
        rw [hp] at hq
        obtain rfl := Option.some.inj hq
        have hu := hview.isGround huSeen
        obtain ⟨b'', hb''⟩ := hmatches.ground.exists_matching?_congr hu (BEq.symm hsame) hmatch
        obtain ⟨x, hx, hparent, htriple⟩ := Engine.exists_mem_joins he (hwired.shares hc) hc hp ht
          hts rfl hmatches hb''
        exact Or.inr (Or.inr ⟨rfl, x, hx, hparent, htriple ▸ hsame⟩)
      · exact Or.inr (Or.inl (Or.inr ⟨hsame, ts, hts, hmem⟩))
  apply (hjoins _ hfirst).weaken
  rintro j place u _ (hexpected | ⟨hsame, ts, hts, hmem⟩)
  · exact Or.inr (Or.inl hexpected)
  · exact Or.inr (Or.inr ⟨hsame, ts, hextends.spells hts, hmem⟩)

end Work

end Entailment
