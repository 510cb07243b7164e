import Mathlib

/-! How an expression with infix operators is read: it is divided at the last operator, outside
of all brackets, of the level that binds least. -/
namespace ReadexPtf

/-- The token behind one that joins belongs to it. Levels are counted from the one that binds
least; what has no operators is in brackets, or an atom. -/
structure InfixNotation (τ ν : Type) where
  opens : τ → Bool
  closes : τ → Bool
  joins : τ → Bool
  level : τ → Option ℕ
  levels : ℕ
  combine : τ → ν → ν → Option ν
  atom : List τ → Option ν
  plain : ∀ t k, level t = some k → opens t = false ∧ closes t = false ∧ joins t = false
  opening : ∀ t, opens t = true → closes t = false ∧ joins t = false
  closing : ∀ t, closes t = true → opens t = false ∧ joins t = false

namespace InfixNotation
variable {τ ν : Type} (n : InfixNotation τ ν)

/-- The number of brackets that are open, and whether the token before joins. -/
def advance (s : ℕ × Bool) (t : τ) : ℕ × Bool :=
  (if n.opens t then s.1 + 1 else if n.closes t then s.1 - 1 else s.1, n.joins t)

def splitLast (k : ℕ) : ℕ × Bool → List τ → Option (List τ × τ × List τ)
  | _, [] => none
  | s, t :: ts =>
    match splitLast k (n.advance s t) ts with
    | some (left, operator, right) => some (t :: left, operator, right)
    | none => if s = (0, false) ∧ n.level t = some k then some ([], t, ts) else none

def read : ℕ → List τ → Option ν
  | 0, _ => none
  | fuel + 1, ts =>
    match (List.range n.levels).findSome? fun k => n.splitLast k (0, false) ts with
    | some (left, operator, right) => do
      n.combine operator (← read fuel left) (← read fuel right)
    | none =>
      match ts with
      | [] => none
      | t :: rest => if n.opens t then read fuel rest.dropLast else n.atom (t :: rest)

/-- An operand leaves the brackets as they are, and joins nothing; within brackets it is not
divided. -/
structure Operand (ts : List τ) : Prop where
  advances : ∀ depth, ts.foldl n.advance (depth, false) = (depth, false)
  inside : ∀ k depth, n.splitLast k (depth + 1, false) ts = none

variable {n} {k : ℕ} {left right ts : List τ} {operator : τ}

theorem advance_operator {level : ℕ} (h : n.level operator = some level) (depth : ℕ) :
    n.advance (depth, false) operator = (depth, false) := by
  obtain ⟨hopens, hcloses, hjoins⟩ := n.plain operator level h
  simp [advance, hopens, hcloses, hjoins]

/-- The last operator is in the second part, or else in the first one. -/
theorem splitLast_append (s : ℕ × Bool) : n.splitLast k s (left ++ right) =
    match n.splitLast k (left.foldl n.advance s) right with
    | some (before, operator, behind) => some (left ++ before, operator, behind)
    | none => (n.splitLast k s left).map fun split => (split.1, split.2.1, split.2.2 ++ right) := by
  induction left generalizing s with
  | nil =>
    rw [List.nil_append, List.foldl_nil]
    cases n.splitLast k s right with
    | none => rfl
    | some split => rfl
  | cons t left ih =>
    rw [List.cons_append, splitLast, ih, List.foldl_cons]
    cases n.splitLast k (left.foldl n.advance (n.advance s t)) right with
    | some split => rfl
    | none =>
      rw [splitLast]
      cases n.splitLast k (n.advance s t) left with
      | some split => rfl
      | none =>
        simp only [Option.map_none]
        split_ifs
        · rfl
        · rfl

theorem splitLast_append_none {s : ℕ × Bool}
    (hright : n.splitLast k (left.foldl n.advance s) right = none)
    (hleft : n.splitLast k s left = none) : n.splitLast k s (left ++ right) = none := by
  rw [splitLast_append, hright, hleft]
  rfl

theorem splitLast_cons_none {s : ℕ × Bool} {t : τ} (hrest : n.splitLast k (n.advance s t) ts = none)
    (ht : ¬ (s = (0, false) ∧ n.level t = some k)) : n.splitLast k s (t :: ts) = none := by
  rw [splitLast, hrest]
  exact if_neg ht

theorem splitLast_none_of_level {s : ℕ × Bool} (h : ∀ t ∈ ts, n.level t = none) :
    n.splitLast k s ts = none := by
  induction ts generalizing s with
  | nil => rfl
  | cons t ts ih =>
    rw [List.forall_mem_cons] at h
    refine splitLast_cons_none (ih h.2) fun hs => ?_
    rw [h.1] at hs
    cases hs.2

/-- An operator of another level is passed over. -/
theorem splitLast_other {level : ℕ} (hoperator : n.level operator = some level)
    (hne : level ≠ k) (hleft : n.Operand left) (hl : n.splitLast k (0, false) left = none)
    (hr : n.splitLast k (0, false) right = none) :
    n.splitLast k (0, false) (left ++ operator :: right) = none := by
  refine splitLast_append_none ?_ hl
  rw [hleft.advances]
  refine splitLast_cons_none ?_ fun h => hne (Option.some.inj (hoperator.symm.trans h.2))
  rw [advance_operator hoperator]
  exact hr

theorem splitLast_operation (hoperator : n.level operator = some k) (hleft : n.Operand left)
    (hr : n.splitLast k (0, false) right = none) :
    n.splitLast k (0, false) (left ++ operator :: right) = some (left, operator, right) := by
  have hhere : n.splitLast k (0, false) (operator :: right) = some ([], operator, right) := by
    rw [splitLast, advance_operator hoperator, hr]
    exact if_pos ⟨rfl, hoperator⟩
  rw [splitLast_append, hleft.advances, hhere]
  simp only [List.append_nil]

theorem Operand.operation {level : ℕ} (hoperator : n.level operator = some level)
    (hleft : n.Operand left) (hright : n.Operand right) :
    n.Operand (left ++ operator :: right) where
  advances depth := by
    rw [List.foldl_append, hleft.advances, List.foldl_cons, advance_operator hoperator,
      hright.advances]
  inside k depth := by
    refine splitLast_append_none ?_ (hleft.inside k depth)
    rw [hleft.advances]
    refine splitLast_cons_none ?_ fun h => by cases h.1
    rw [advance_operator hoperator]
    exact hright.inside k depth

section Brackets
variable {opening closing : τ}

theorem advance_opening (hopening : n.opens opening = true) (depth : ℕ) :
    n.advance (depth, false) opening = (depth + 1, false) := by
  simp [advance, hopening, (n.opening opening hopening).2]

theorem advance_closing (hclosing : n.closes closing = true) (depth : ℕ) :
    n.advance (depth + 1, false) closing = (depth, false) := by
  obtain ⟨hopens, hjoins⟩ := n.closing closing hclosing
  simp [advance, hopens, hclosing, hjoins]

/-- Nothing within brackets is an operator of what is outside of them. -/
theorem splitLast_brackets (hopening : n.opens opening = true) (hts : n.Operand ts) (depth : ℕ) :
    n.splitLast k (depth, false) (opening :: (ts ++ [closing])) = none := by
  refine splitLast_cons_none ?_ fun h => ?_
  · rw [advance_opening hopening]
    refine splitLast_append_none ?_ (hts.inside k depth)
    rw [hts.advances]
    exact splitLast_cons_none rfl fun h => by cases h.1
  · have hplain := (n.plain opening k h.2).1
    rw [hopening] at hplain
    cases hplain

theorem Operand.brackets (hopening : n.opens opening = true) (hclosing : n.closes closing = true)
    (hts : n.Operand ts) : n.Operand (opening :: (ts ++ [closing])) where
  advances depth := by
    rw [List.foldl_cons, advance_opening hopening, List.foldl_append, hts.advances,
      List.foldl_cons, advance_closing hclosing, List.foldl_nil]
  inside _ depth := splitLast_brackets hopening hts (depth + 1)

theorem read_brackets (hopening : n.opens opening = true) (hts : n.Operand ts) (fuel : ℕ) :
    n.read (fuel + 1) (opening :: (ts ++ [closing])) = n.read fuel ts := by
  have hnone : ((List.range n.levels).findSome? fun k =>
      n.splitLast k (0, false) (opening :: (ts ++ [closing]))) = none := by
    rw [List.findSome?_eq_none_iff]
    exact fun k _ => splitLast_brackets hopening hts 0
  rw [read, hnone]
  simp only [hopening, if_true, List.dropLast_concat]

end Brackets

/-- The last operator of the lowest level there is divides the expression. -/
theorem read_operation (hk : k < n.levels) (hoperator : n.level operator = some k)
    (hleft : n.Operand left) (hl : ∀ j < k, n.splitLast j (0, false) left = none)
    (hr : ∀ j ≤ k, n.splitLast j (0, false) right = none) (fuel : ℕ) :
    n.read (fuel + 1) (left ++ operator :: right) = (n.read fuel left).bind fun a =>
      (n.read fuel right).bind fun b => n.combine operator a b := by
  have hsplit : ((List.range n.levels).findSome? fun j =>
      n.splitLast j (0, false) (left ++ operator :: right)) = some (left, operator, right) := by
    rw [List.findSome?_eq_some_iff]
    obtain ⟨m, hm⟩ := Nat.exists_eq_add_of_lt hk
    refine ⟨List.range k, k, (List.range m).map (k + 1 + ·), ?_, ?_, ?_⟩
    · rw [hm, Nat.add_right_comm, List.range_add, List.range_succ, List.append_assoc]
      rfl
    · exact splitLast_operation hoperator hleft (hr k le_rfl)
    · intro j hj
      have hlt := List.mem_range.mp hj
      exact splitLast_other hoperator (Nat.ne_of_gt hlt) hleft (hl j hlt) (hr j hlt.le)
  rw [read.eq_def]
  simp only [hsplit]
  rfl

theorem read_atom {t : τ} (h : ∀ k, n.splitLast k (0, false) (t :: ts) = none)
    (ht : n.opens t = false) (fuel : ℕ) : n.read (fuel + 1) (t :: ts) = n.atom (t :: ts) := by
  have hnone : ((List.range n.levels).findSome? fun k => n.splitLast k (0, false) (t :: ts)) =
      none := by
    rw [List.findSome?_eq_none_iff]
    exact fun k _ => h k
  rw [read, hnone]
  simp only [ht, Bool.false_eq_true, if_false]

end InfixNotation

end ReadexPtf
