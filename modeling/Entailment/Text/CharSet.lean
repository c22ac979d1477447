/-!
# Sets of characters

A `CharSet` holds code points.  It is given by its bounds, the places where
membership changes, in increasing order.  Two sets are combined by one sweep over
the bounds of both, and `contains_combine` says that the result holds what the
operation on truth values makes of the two memberships.
-/

namespace Entailment

namespace CharSet

/-- Membership at `c`, if it is `inside` before the first bound. -/
def flips (c : Nat) : Bool → List Nat → Bool
  | inside, [] => inside
  | inside, b :: bounds => if b ≤ c then flips c (!inside) bounds else inside

theorem flips_of_lt {c : Nat} {inside : Bool} {bounds : List Nat} (h : ∀ b ∈ bounds, c < b) :
    flips c inside bounds = inside := by
  cases bounds with
  | nil => rfl
  | cons b bounds =>
    have := h b List.mem_cons_self
    simp [flips, Nat.not_le.2 this]

/-- Puts a bound in front where membership changes. -/
def changeAt (b : Nat) (before after : Bool) (bounds : List Nat) : List Nat :=
  if before = after then bounds else b :: bounds

theorem mem_changeAt {c b : Nat} {before after : Bool} {bounds : List Nat}
    (h : c ∈ changeAt b before after bounds) : c = b ∨ c ∈ bounds := by
  unfold changeAt at h
  split at h
  · exact .inr h
  · exact List.mem_cons.1 h

theorem pairwise_changeAt {b : Nat} {before after : Bool} {bounds : List Nat}
    (hb : ∀ c ∈ bounds, b < c) (h : bounds.Pairwise (· < ·)) :
    (changeAt b before after bounds).Pairwise (· < ·) := by
  unfold changeAt
  split
  · exact h
  · exact List.pairwise_cons.2 ⟨hb, h⟩

theorem flips_changeAt {c b : Nat} {before after : Bool} {bounds : List Nat}
    (h : ∀ d ∈ bounds, b < d) :
    flips c before (changeAt b before after bounds) =
      if b ≤ c then flips c after bounds else before := by
  unfold changeAt
  split
  · rename_i same
    subst same
    split
    · rfl
    · exact flips_of_lt fun d hd => by have := h d hd; omega
  · rename_i differ
    have : (!before) = after := by cases before <;> cases after <;> simp_all
    simp [flips, this]

/-- The bounds of a combined set, from those of both sets and the memberships before
them. -/
def sweep (op : Bool → Bool → Bool) (x y : Bool) (as bs : List Nat) : List Nat :=
  match as, bs with
  | [], [] => []
  | a :: as, [] => changeAt a (op x y) (op (!x) y) (sweep op (!x) y as [])
  | [], b :: bs => changeAt b (op x y) (op x (!y)) (sweep op x (!y) [] bs)
  | a :: as, b :: bs =>
    if a < b then changeAt a (op x y) (op (!x) y) (sweep op (!x) y as (b :: bs))
    else if b < a then changeAt b (op x y) (op x (!y)) (sweep op x (!y) (a :: as) bs)
    else changeAt a (op x y) (op (!x) (!y)) (sweep op (!x) (!y) as bs)
termination_by as.length + bs.length

theorem mem_sweep {op : Bool → Bool → Bool} {x y : Bool} {as bs : List Nat} {c : Nat}
    (h : c ∈ sweep op x y as bs) : c ∈ as ∨ c ∈ bs := by
  fun_induction sweep op x y as bs with
  | case1 => simp at h
  | case2 x y a as ih => have := mem_changeAt h; grind
  | case3 x y b bs ih => have := mem_changeAt h; grind
  | case4 x y a as b bs _ ih => have := mem_changeAt h; grind
  | case5 x y a as b bs _ _ ih => have := mem_changeAt h; grind
  | case6 x y a as b bs _ _ ih => have := mem_changeAt h; grind

/-- Every bound that a sweep still finds lies behind one that lies before all others. -/
theorem lt_of_mem_sweep {op : Bool → Bool → Bool} {x y : Bool} {as bs : List Nat} {a : Nat}
    (has : ∀ c ∈ as, a < c) (hbs : ∀ c ∈ bs, a < c) :
    ∀ c ∈ sweep op x y as bs, a < c :=
  fun c h => (mem_sweep h).elim (has c) (hbs c)

theorem pairwise_sweep {op : Bool → Bool → Bool} {x y : Bool} {as bs : List Nat}
    (has : as.Pairwise (· < ·)) (hbs : bs.Pairwise (· < ·)) :
    (sweep op x y as bs).Pairwise (· < ·) := by
  fun_induction sweep op x y as bs with
  | case1 => exact .nil
  | case2 x y a as ih =>
    have ⟨ha, has⟩ := List.pairwise_cons.1 has
    exact pairwise_changeAt (lt_of_mem_sweep ha (by simp)) (ih has hbs)
  | case3 x y b bs ih =>
    have ⟨hb, hbs⟩ := List.pairwise_cons.1 hbs
    exact pairwise_changeAt (lt_of_mem_sweep (by simp) hb) (ih has hbs)
  | case4 x y a as b bs hab ih =>
    have ⟨ha, has⟩ := List.pairwise_cons.1 has
    have ⟨hb, _⟩ := List.pairwise_cons.1 hbs
    exact pairwise_changeAt (lt_of_mem_sweep ha (by grind)) (ih has hbs)
  | case5 x y a as b bs _ hba ih =>
    have ⟨ha, _⟩ := List.pairwise_cons.1 has
    have ⟨hb, hbs⟩ := List.pairwise_cons.1 hbs
    exact pairwise_changeAt (lt_of_mem_sweep (by grind) hb) (ih has hbs)
  | case6 x y a as b bs hab hba ih =>
    have ⟨ha, has⟩ := List.pairwise_cons.1 has
    have ⟨hb, hbs⟩ := List.pairwise_cons.1 hbs
    have : a = b := by omega
    exact pairwise_changeAt (lt_of_mem_sweep ha (this ▸ hb)) (ih has hbs)

theorem flips_sweep {op : Bool → Bool → Bool} {x y : Bool} {as bs : List Nat} (c : Nat)
    (has : as.Pairwise (· < ·)) (hbs : bs.Pairwise (· < ·)) :
    flips c (op x y) (sweep op x y as bs) = op (flips c x as) (flips c y bs) := by
  fun_induction sweep op x y as bs with
  | case1 => rfl
  | case2 x y a as ih =>
    have ⟨ha, has⟩ := List.pairwise_cons.1 has
    rw [flips_changeAt (lt_of_mem_sweep ha (by simp)), ih has hbs]
    simp only [flips]
    split <;> rfl
  | case3 x y b bs ih =>
    have ⟨hb, hbs⟩ := List.pairwise_cons.1 hbs
    rw [flips_changeAt (lt_of_mem_sweep (by simp) hb), ih has hbs]
    simp only [flips]
    split <;> rfl
  | case4 x y a as b bs hab ih =>
    have ⟨ha, has⟩ := List.pairwise_cons.1 has
    have ⟨hb, _⟩ := List.pairwise_cons.1 hbs
    rw [flips_changeAt (lt_of_mem_sweep ha (by grind)), ih has hbs]
    by_cases hc : a ≤ c
    · simp [flips, hc]
    · simp [flips, hc, show ¬ b ≤ c by omega]
  | case5 x y a as b bs _ hba ih =>
    have ⟨ha, _⟩ := List.pairwise_cons.1 has
    have ⟨hb, hbs⟩ := List.pairwise_cons.1 hbs
    rw [flips_changeAt (lt_of_mem_sweep (by grind) hb), ih has hbs]
    by_cases hc : b ≤ c
    · simp [flips, hc]
    · simp [flips, hc, show ¬ a ≤ c by omega]
  | case6 x y a as b bs hab hba ih =>
    have ⟨ha, has⟩ := List.pairwise_cons.1 has
    have ⟨hb, hbs⟩ := List.pairwise_cons.1 hbs
    have : a = b := by omega
    rw [flips_changeAt (lt_of_mem_sweep ha (this ▸ hb)), ih has hbs]
    subst this
    simp only [flips]
    split <;> rfl

end CharSet

structure CharSet where
  bounds : List Nat
  increasing : bounds.Pairwise (· < ·) := by simp
deriving DecidableEq

namespace CharSet

def contains (s : CharSet) (c : Nat) : Bool := flips c false s.bounds

def empty : CharSet := ⟨[], .nil⟩

instance : Inhabited CharSet := ⟨empty⟩

theorem increasing_interval {a b : Nat} (h : a ≤ b) : [a, b + 1].Pairwise (· < ·) := by
  simp
  omega

/-- The code points from `a` to `b`. -/
def interval (a b : Nat) : CharSet :=
  if h : a ≤ b then ⟨[a, b + 1], increasing_interval h⟩ else empty

/-- The set whose members an operation tells from membership in two sets. -/
def combine (op : Bool → Bool → Bool) (s t : CharSet) : CharSet :=
  ⟨sweep op false false s.bounds t.bounds, pairwise_sweep s.increasing t.increasing⟩

/-- What is in neither set must not be in the combined one. -/
theorem contains_combine {op : Bool → Bool → Bool} (h : op false false = false) (s t : CharSet)
    (c : Nat) : (combine op s t).contains c = op (s.contains c) (t.contains c) := by
  have := @flips_sweep op false false _ _ c s.increasing t.increasing
  rwa [h] at this

def union : CharSet → CharSet → CharSet := combine or

def inter : CharSet → CharSet → CharSet := combine and

def diff : CharSet → CharSet → CharSet := combine fun x y => x && !y

def symmDiff : CharSet → CharSet → CharSet := combine xor

/-- All characters; surrogates are none. -/
def all : CharSet := ⟨[0, 0xd800, 0xe000, 0x110000], by simp⟩

def compl (s : CharSet) : CharSet := all.diff s

theorem contains_union (s t : CharSet) (c : Nat) :
    (s.union t).contains c = (s.contains c || t.contains c) := contains_combine rfl s t c

theorem contains_inter (s t : CharSet) (c : Nat) :
    (s.inter t).contains c = (s.contains c && t.contains c) := contains_combine rfl s t c

theorem contains_diff (s t : CharSet) (c : Nat) :
    (s.diff t).contains c = (s.contains c && !t.contains c) := contains_combine rfl s t c

theorem contains_compl (s : CharSet) (c : Nat) :
    s.compl.contains c = (all.contains c && !s.contains c) := contains_diff all s c

/-- The union of sets, halves first. -/
def unionOf (sets : List CharSet) : CharSet :=
  match sets with
  | [] => empty
  | [s] => s
  | s :: t :: rest =>
    let half := (s :: t :: rest).length / 2
    (unionOf ((s :: t :: rest).take half)).union (unionOf ((s :: t :: rest).drop half))
termination_by sets.length
decreasing_by all_goals simp; omega

/-- The characters in the ranges, of which both ends are given. -/
def ofRanges (ranges : List (Nat × Nat)) : CharSet :=
  all.inter (unionOf (ranges.map fun r => interval r.1 r.2))

def single (c : Nat) : CharSet := ofRanges [(c, c)]

/-- The longest ranges without gaps, in increasing order. -/
def ranges (s : CharSet) : List (Nat × Nat) :=
  let rec pairs : List Nat → List (Nat × Nat)
    | a :: b :: bounds => (a, b - 1) :: pairs bounds
    | _ => []
  pairs s.bounds

def isEmpty (s : CharSet) : Bool := s.bounds.isEmpty

/-- No member lies beyond ASCII. -/
def isAscii (s : CharSet) : Bool := s.bounds.all fun b => decide (b ≤ 0x80)

/-- The member, if there is just one. -/
def single? (s : CharSet) : Option Nat :=
  match s.bounds with
  | [a, b] => if b = a + 1 then some a else none
  | _ => none

end CharSet

end Entailment
