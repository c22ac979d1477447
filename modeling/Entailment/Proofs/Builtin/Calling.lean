import Entailment.Proofs.Builtin.Keeping

/-!
# Calls of standard builtins

No two standard builtins have one name, so each of them is found by its own.  A call hands
it the values of the arguments, and an argument that is neither open nor a functor is its
own value.
-/

namespace Entailment

namespace Registry

/-- Builtins of other names do not get in the way. -/
theorem get?_byName_foldl_of_ne {bs : List Builtin} {name : String}
    (h : ∀ b ∈ bs, b.name ≠ name) (r : Registry) :
    (bs.foldl register r).byName.get? name = r.byName.get? name := by
  induction bs generalizing r with
  | nil => rfl
  | cons b bs ih =>
      have hne : (b.name == name) = false := beq_false_of_ne (h b List.mem_cons_self)
      rw [List.foldl_cons, ih (fun c hc => h c (List.mem_cons_of_mem _ hc)), register,
        OrderedMap.get?_insert, hne]
      rfl

theorem get?_byName_foldl {bs : List Builtin} (hnames : (bs.map Builtin.name).Nodup)
    {b : Builtin} (hb : b ∈ bs) (r : Registry) :
    (bs.foldl register r).byName.get? b.name = some b := by
  induction bs generalizing r with
  | nil => cases hb
  | cons c bs ih =>
      obtain ⟨hnew, hnames⟩ := List.nodup_cons.1 hnames
      rw [List.foldl_cons]
      rcases List.mem_cons.1 hb with rfl | hb
      · have hothers : ∀ c ∈ bs, c.name ≠ b.name := fun c hc heq =>
          hnew (List.mem_map.2 ⟨c, hc, heq⟩)
        rw [get?_byName_foldl_of_ne hothers, register, OrderedMap.get?_insert, BEq.rfl]
        rfl
      · exact ih hnames hb _

theorem get?_standard {b : Builtin} (hb : b ∈ Builtin.standard) :
    standard.get? b.name = some b := by
  have hnames : (Builtin.standard.map Builtin.name).Nodup := by decide +kernel
  rw [get?, standard, ofBuiltins, get?_byName_foldl hnames hb, Option.some_or]

end Registry

namespace Node

/-- The integer of an integer literal, or of a text of an integer type. -/
def whole? : Node → Option Int64
  | .literal l => l.integer?
  | _ => none

theorem literal_of_whole? {n : Node} {i : Int64} (h : n.whole? = some i) :
    ∃ l, n = .literal l := by
  cases n with
  | literal l => exact ⟨l, rfl⟩
  | _ => cases h

end Node

namespace Bindings

/-- The value of a node as far as it has one. -/
def valueOr (b : Bindings) (n : Node) : Node := (b.resolve n).getD n

theorem valueOr_of_ground (b : Bindings) {n : Node} (hground : n.isGround = true)
    (hflat : n.isFunctor = false) : b.valueOr n = n := by
  cases n with
  | uri _ | literal _ | blank _ => rfl
  | var _ | any => cases hground
  | functor _ _ => cases hflat

theorem valueOr_of_whole? (b : Bindings) {n : Node} {i : Int64} (h : n.whole? = some i) :
    b.valueOr n = n := by
  obtain ⟨l, rfl⟩ := Node.literal_of_whole? h
  rfl

theorem valueOr_of_unbound {b : Bindings} {v : Var} {last : Nat}
    (h : b.deref v.index = some (.unbound last)) : b.valueOr (.var v) = .var v := by
  rw [valueOr, resolve, h]
  rfl

/-- A variable without a value takes one. -/
theorem bind_of_unbound {b : Bindings} {v : Var} {last : Nat}
    (h : b.deref v.index = some (.unbound last)) {n : Node} (hn : n.isGround = true) :
    b.bind (.var v) n = (true, b.set last (.ground n)) := by
  rw [bind, bindSlot, bindSlotBy, h]
  cases n with
  | var _ | any => cases hn
  | _ => rfl

end Bindings

/-- A call that sees no triples. -/
def CallContext.blind : CallContext := ⟨fun _ => [], fun _ => false, [], "", false, false⟩

/-- A call runs the builtin of its name on the values of its arguments. -/
theorem Call.holds_standard {b : Builtin} (hb : b ∈ Builtin.standard) (args : List Node)
    (ctx : CallContext) (st : CallState) :
    (Call.mk b.name args).holds Registry.standard ctx st =
      b.body ctx (args.map st.bindings.valueOr) st := by
  rw [holds, Registry.get?_standard hb]
  rfl

end Entailment
